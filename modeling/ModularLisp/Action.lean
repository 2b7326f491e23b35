import ModularLisp.Module.Registry

/-!
# Actions on the state

Evaluation is an action on the heap, the registry and the progress of requires and loads. Its
outcome is a value, an error, which leaves the state as it stood when the error arose, or the lack
of fuel.
-/

namespace ModularLisp

structure State where
  heap : Heap
  registry : Registry
  progress : Progress
  fresh : Stamp

namespace State

/-- One root scope that binds nothing. -/
def withRoot : State := ⟨Heap.empty.push ⟨.empty, []⟩, .empty, .idle, 0⟩

end State

inductive Result (α : Type) where
  | ok (value : α) (state : State)
  | error (e : Error) (state : State)
  | outOfFuel

def Action (α : Type) : Type := State → Result α

namespace Action

variable {α β : Type}

@[inline] def pure (a : α) : Action α := fun s => .ok a s

@[inline] def bind (x : Action α) (f : α → Action β) : Action β := fun s =>
  match x s with
  | .ok a t => f a t
  | .error e t => .error e t
  | .outOfFuel => .outOfFuel

instance : Monad Action where
  pure := pure
  bind := bind

@[inline] def throw (e : Error) : Action α := fun s => .error e s

@[inline] def ofExcept : Except Error α → Action α
  | .ok a => pure a
  | .error e => throw e

/-- Runs `leave` after `x` whatever its outcome; an error of `leave` prevails. -/
def ensuring (x : Action α) (leave : Action β) : Action (α × β) := fun s =>
  match x s with
  | .ok a t => (bind leave fun b => pure (a, b)) t
  | .error e t => (bind leave fun _ => throw e) t
  | .outOfFuel => .outOfFuel

def lookup (scope : FrameId) (name : String) : Action Value := fun s =>
  match s.heap.lookup scope name with
  | .ok v => .ok v s
  | .error e => .error e s

/-- Adds a frame to the heap. -/
def allocate (f : Frame) : Action FrameId := fun s =>
  let i := s.heap.next
  .ok i { s with heap := s.heap.push f }

def bindIn (scope : FrameId) (name : String) (v : Value) : Action Unit := fun s =>
  .ok () { s with heap := s.heap.bind scope name v }

/-- Binds a name in the frame itself. -/
def define (scope : FrameId) (label : Label) (v : Value) : Action Unit :=
  match label.name? with
  | some name => bindIn scope name v
  | none => throw (.eval (.undefinable label))

/-- Changes the nearest binding of a name. -/
def set (scope : FrameId) (name : String) (v : Value) : Action Unit := fun s =>
  match s.heap.find? scope name with
  | some i => bindIn i name v s
  | none => .error (.eval (.setUnbound name)) s

/-- Defines one name after the other; what precedes a refused name stays defined. -/
def defineAll (scope : FrameId) : List (String × Value) → Action Unit
  | [] => pure ()
  | (name, v) :: rest => bind (define scope (.text name) v) fun _ => defineAll scope rest

/-- A new scope inside a frame. -/
def openScope (scope : FrameId) : Action FrameId := fun s => allocate (s.heap.innerFrame scope) s

/-- A new scope for the body of a function. -/
def enter (c : Closure) (args : List Value) : Action FrameId := fun s =>
  match s.heap.bodyFrame c args with
  | .ok f => allocate f s
  | .error e => .error e s

def rootOf (scope : FrameId) : Action FrameId := fun s => .ok (s.heap.root scope) s

/-- The names among `names` that the frame itself does not bind. -/
def undefinedIn (scope : FrameId) (names : List String) : Action (List String) := fun s =>
  .ok (names.filter fun name => !(s.heap.bindings scope).binds name) s

def stamp : Action Stamp := fun s => .ok s.fresh { s with fresh := s.fresh + 1 }

def declare (m : Module) : Action Unit := fun s =>
  .ok () { s with registry := s.registry.register m, progress := s.progress.collect m }

def registered? (name : String) : Action (Option Module) := fun s =>
  .ok (s.registry.modules.find? name) s

def cached? (key : String) : Action (Option (List Module)) := fun s =>
  .ok (s.registry.files.find? key) s

def cacheFile (key : String) (ms : List Module) : Action Unit := fun s =>
  .ok () { s with registry := s.registry.cacheFile key ms }

def exported (ms : List Module) : Action (Bindings Value) := fun s =>
  match Module.exportedByAll ms s.heap with
  | .ok b => .ok b s
  | .error f => .error f s

def beginRequire (key : String) : Action Unit := fun s =>
  match s.progress.beginRequire key with
  | .ok p => .ok () { s with progress := p }
  | .error e => .error e s

def endRequire : Action (List Module) := fun s =>
  match s.progress.endRequire with
  | .ok (declared, p) => .ok declared { s with progress := p }
  | .error f => .error f s

def beginLoad (key : String) : Action Unit := fun s =>
  match s.progress.beginLoad key with
  | .ok p => .ok () { s with progress := p }
  | .error e => .error e s

def endLoad : Action Unit := fun s =>
  match s.progress.endLoad with
  | .ok p => .ok () { s with progress := p }
  | .error f => .error f s

/-- Runs `x` while the file `key` is being required; gives the modules declared meanwhile. -/
def whileRequiring (key : String) (x : Action α) : Action (α × List Module) :=
  bind (beginRequire key) fun _ => ensuring x endRequire

/-- Runs `x` while the file `key` is being loaded. -/
def whileLoading (key : String) (x : Action α) : Action α :=
  bind (beginLoad key) fun _ => bind (ensuring x endLoad) fun r => pure r.1

end Action

end ModularLisp
