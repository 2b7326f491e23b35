import ModularLisp.Scope.Heap

/-!
# Modules

A module is a scope with a list of exported names. The registry holds the modules by name and, for
each required file, the modules it declared; what is in progress is kept on stacks, innermost first.
-/

namespace ModularLisp

structure Module where
  name : String
  scope : FrameId
  exports : List String
  deriving DecidableEq, Repr

/-- The current bindings of a module's exported names. -/
def Module.exported (m : Module) (h : Heap) : Except Fault (Bindings Value) :=
  m.exports.foldlM (fun b name =>
    match (h.bindings m.scope).find? name with
    | some v => .ok (b.insert name v)
    | none => .error (.unboundExport name)) .empty

/-- What several modules export together; of two exports of one name the later one counts. -/
def Module.exportedByAll (ms : List Module) (h : Heap) : Except Fault (Bindings Value) :=
  ms.foldlM (fun b m => (m.exported h).map b.union) .empty

structure Registry where
  modules : Bindings Module
  files : Bindings (List Module)

namespace Registry

def empty : Registry := ⟨.empty, .empty⟩

def register (r : Registry) (m : Module) : Registry :=
  { r with modules := r.modules.insert m.name m }

def cacheFile (r : Registry) (key : String) (ms : List Module) : Registry :=
  { r with files := r.files.insert key ms }

end Registry

/-- The files being required and loaded, and the modules declared so far by each required one. -/
structure Progress where
  requiring : List String
  loading : List String
  collectors : List (List Module)
  deriving DecidableEq, Repr

namespace Progress

def idle : Progress := ⟨[], [], []⟩

/-- A declared module counts for the innermost file being required. -/
def collect (p : Progress) (m : Module) : Progress :=
  match p.collectors with
  | [] => p
  | declared :: rest => { p with collectors := (declared ++ [m]) :: rest }

/-- The files on a stack from the outermost on, and the file that closes the circle. -/
def circle (stack : List String) (key : String) : List String := stack.reverse ++ [key]

def beginRequire (p : Progress) (key : String) : Except EvalError Progress :=
  if key ∈ p.requiring then .error (.circularRequire (circle p.requiring key))
  else .ok { p with requiring := key :: p.requiring, collectors := [] :: p.collectors }

/-- The modules declared by the innermost required file, and the rest. -/
def endRequire (p : Progress) : Except Fault (List Module × Progress) :=
  match p.requiring, p.collectors with
  | _ :: requiring, declared :: collectors => .ok (declared, { p with requiring, collectors })
  | _, _ => .error .noRequireInProgress

def beginLoad (p : Progress) (key : String) : Except EvalError Progress :=
  if key ∈ p.loading then .error (.circularLoad (circle p.loading key))
  else .ok { p with loading := key :: p.loading }

def endLoad (p : Progress) : Except Fault Progress :=
  match p.loading with
  | _ :: loading => .ok { p with loading }
  | [] => .error .noLoadInProgress

end Progress

end ModularLisp
