import ModularLisp.Evaluation.Step

/-!
# Sessions

A session runs any number of interpreters over one heap. Each has a root scope with builtins of its
own, and either its own registry or one that all share. Only the root scope, the registry and what
is in progress belong to an interpreter; everything else is reached through these.
-/

namespace ModularLisp

structure Interpreter where
  root : FrameId
  owner : Stamp
  registry : Nat
  progress : Progress
  deriving DecidableEq, Repr

structure Session where
  heap : Heap
  fresh : Stamp
  registries : Array Registry
  interpreters : Array Interpreter

/-- The end of an evaluation. -/
inductive Outcome where
  | value (v : Value)
  | error (e : Error)
  | outOfFuel

def Builtin.bindings (owner : Stamp) : Bindings Value :=
  .ofList (Builtin.all.map fun b => (b.name, .builtin owner b))

namespace Session

def empty : Session := ⟨.empty, 0, #[], #[]⟩

/-- A new interpreter that uses the given registry. -/
def addInterpreter (s : Session) (registry : Nat) : Session where
  heap := s.heap.push ⟨Builtin.bindings s.fresh, []⟩
  fresh := s.fresh + 1
  registries := s.registries
  interpreters := s.interpreters.push ⟨s.heap.next, s.fresh, registry, .idle⟩

def addRegistry (s : Session) : Session := { s with registries := s.registries.push .empty }

/-- `count` interpreters, over one registry or over one each. -/
def start (shared : Bool) : (count : Nat) → Session
  | 0 => if shared then empty.addRegistry else empty
  | count + 1 =>
    let s := start shared count
    if shared then s.addInterpreter 0 else s.addRegistry.addInterpreter count

def registryOf (s : Session) (i : Interpreter) : Registry :=
  s.registries[i.registry]?.getD .empty

/-- The state that an interpreter works on. -/
def stateOf (s : Session) (i : Interpreter) : State :=
  ⟨s.heap, s.registryOf i, i.progress, s.fresh⟩

/-- Puts back the state that interpreter `index` has worked on. -/
def update (s : Session) (index : Nat) (i : Interpreter) (t : State) : Session where
  heap := t.heap
  fresh := t.fresh
  registries := s.registries.setIfInBounds i.registry t.registry
  interpreters := s.interpreters.setIfInBounds index { i with progress := t.progress }

/-- Runs an action of interpreter `index`; without such an interpreter nothing happens. -/
def perform (s : Session) (index : Nat) (action : Interpreter → Action Value) :
    Outcome × Session :=
  match s.interpreters[index]? with
  | none => (.value .nil, s)
  | some i =>
    match action i (s.stateOf i) with
    | .ok v t => (.value v, s.update index i t)
    | .error e t => (.error e, s.update index i t)
    | .outOfFuel => (.outOfFuel, s)

/-- Reads a whole source text, then evaluates its forms at the root. -/
def evalSource (loader : Option Loader) (fuel : Nat) (source : String) (i : Interpreter) :
    Action Value :=
  match Expr.readAll source with
  | .ok forms => Evaluation.evalForms loader fuel i.root forms
  | .error e => .throw (.read e)

def eval (loader : Option Loader) (fuel : Nat) (s : Session) (index : Nat) (source : String) :
    Outcome × Session :=
  s.perform index (evalSource loader fuel source)

/-- Evaluates texts one after the other, each on an interpreter of its own choice. -/
def run (loader : Option Loader) (fuel : Nat) (s : Session) :
    List (Nat × String) → List Outcome × Session
  | [] => ([], s)
  | (index, source) :: steps =>
    let (outcome, s) := s.eval loader fuel index source
    let (outcomes, s) := run loader fuel s steps
    (outcome :: outcomes, s)

/-- Evaluates one expression at the root with an empty registry and no loader. -/
def evalAlone (fuel : Nat) (e : Expr) (i : Interpreter) : Action Value := fun s =>
  Evaluation.eval none fuel e i.root { s with registry := .empty, progress := .idle }

/-- A name that is bound to the interpreter's own builtin of that name. -/
def isOwnBuiltin (i : Interpreter) (entry : String × Value) : Bool :=
  match entry.2 with
  | .builtin owner b => owner == i.owner && b.name == entry.1
  | _ => false

/-- What an interpreter's root scope binds beside the builtins, sorted by name. -/
def globals (s : Session) (i : Interpreter) : List (String × Value) :=
  ((s.heap.bindings i.root).entries.filter fun entry => !isOwnBuiltin i entry).mergeSort
    fun a b => a.1 ≤ b.1

end Session

end ModularLisp
