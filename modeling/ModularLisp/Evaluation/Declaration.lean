import ModularLisp.Evaluation.Form
import ModularLisp.Loader.Basic

/-!
# Modules and files

A module form evaluates its body in a scope of its own and registers what it exports. A required
file is evaluated once, in a scope under the root; its modules' exports then become visible as the
require says. A loaded file is evaluated in place, every time.
-/

namespace ModularLisp.Evaluation

variable (loader : Option Loader) (ev : Evaluator)

def makeNameSpace (name : String) (members : Bindings Value) : Action Value := do
  let stamp ← Action.stamp
  pure (.nameSpace stamp name members)

def evalModule (name : String) (exports : List String) (body : List Expr) (scope : FrameId) :
    Action Value := do
  let inner ← Action.openScope scope
  let _ ← evalBody ev inner .nil body
  let missing ← Action.undefinedIn inner exports
  if missing.isEmpty then
    let m : Module := ⟨name, inner, exports⟩
    Action.declare m
    let members ← Action.exported [m]
    let v ← makeNameSpace name members
    Action.define scope (.text name) v
    pure .nil
  else fail (.exportsUndefined name missing)

def evalImport (name : String) (scope : FrameId) : Action Value := do
  match ← Action.registered? name with
  | some m =>
    let members ← Action.exported [m]
    Action.defineAll scope members.entries
    pure .nil
  | none => fail (.moduleNotFound name)

def theLoader (filename : String) : Action Loader :=
  match loader with
  | some l => pure l
  | none => .throw (.load (.noLoader filename))

def fromLoader {α : Type} (filename : String) : Except LoadFailure α → Action α
  | .ok a => pure a
  | .error failure => .throw (failure.toError filename)

/-- Evaluates a file's forms in a new scope under the root. -/
def evalRequired (l : Loader) (filename : String) (scope : FrameId) : Action Value := do
  let forms ← fromLoader filename (l.forms filename)
  let root ← Action.rootOf scope
  let inner ← Action.openScope root
  evalBody ev inner .nil forms

/-- The modules of a file, which is evaluated if it is required for the first time. -/
def requiredModules (filename : String) (scope : FrameId) : Action (List Module) := do
  let l ← theLoader loader filename
  let key ← fromLoader filename (l.canonicalName filename)
  match ← Action.cached? key with
  | some ms => pure ms
  | none =>
    let (_, declared) ← Action.whileRequiring key (evalRequired ev l filename scope)
    if declared.isEmpty then fail (.noModuleDeclared filename)
    else
      Action.cacheFile key declared
      pure declared

/-- The bindings of the chosen names, or an error for the first that is missing. -/
def choose (filename : String) (exports : Bindings Value) (names : List String) :
    Except EvalError (Bindings Value) :=
  names.foldlM (fun b name =>
    match exports.find? name with
    | some v => .ok (b.insert name v)
    | none => .error (.fileNotExporting filename name)) .empty

def makeVisible (filename : String) (visibility : Visibility) (exports : Bindings Value)
    (scope : FrameId) : Action Unit :=
  match visibility with
  | .all => Action.defineAll scope exports.entries
  | .qualified qualifier => do
    let v ← makeNameSpace qualifier exports
    Action.define scope (.text qualifier) v
  | .only names => do
    let chosen ← lift (choose filename exports names)
    Action.defineAll scope chosen.entries

def evalRequire (filename : String) (visibility : Visibility) (scope : FrameId) :
    Action Value := do
  let ms ← requiredModules loader ev filename scope
  let exports ← Action.exported ms
  makeVisible filename visibility exports scope
  pure .nil

def evalLoad (filename : String) (scope : FrameId) : Action Value := do
  let l ← theLoader loader filename
  let key ← fromLoader filename (l.canonicalName filename)
  Action.whileLoading key do
    let forms ← fromLoader filename (l.forms filename)
    evalBody ev scope .nil forms

end ModularLisp.Evaluation
