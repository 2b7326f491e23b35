import ModularLisp.Error
import ModularLisp.Value.Display

/-!
# Scopes

A frame holds the bindings of one scope and knows the frames around it, innermost first; the heap
holds every frame ever opened. A name is seen from a frame in the nearest frame of its chain that
binds it; `prefix.member` is also seen through a namespace bound to `prefix`.
-/

namespace ModularLisp

structure Frame where
  bindings : Bindings Value
  outer : List FrameId

structure Heap where
  frames : Array Frame

namespace Heap

def empty : Heap := ⟨#[]⟩

def frame? (h : Heap) (i : FrameId) : Option Frame := h.frames[i]?

/-- The bindings of a frame itself. -/
def bindings (h : Heap) (i : FrameId) : Bindings Value :=
  ((h.frame? i).map (·.bindings)).getD .empty

def outer (h : Heap) (i : FrameId) : List FrameId :=
  ((h.frame? i).map (·.outer)).getD []

/-- A frame and the frames around it, innermost first. -/
def chain (h : Heap) (i : FrameId) : List FrameId := i :: h.outer i

def root (h : Heap) (i : FrameId) : FrameId := (h.outer i).getLastD i

/-- The nearest frame that binds a name. -/
def find? (h : Heap) (i : FrameId) (name : String) : Option FrameId :=
  (h.chain i).find? fun j => (h.bindings j).binds name

/-- The value in the nearest frame that binds a name. -/
def value? (h : Heap) (i : FrameId) (name : String) : Option Value :=
  (h.chain i).findSome? fun j => (h.bindings j).find? name

/-- The parts of a name before and after its first point, when neither is empty. -/
def qualifiedName? (name : String) : Option (String × String) :=
  match name.toList.span (· ≠ '.') with
  | (c :: qualifier, '.' :: d :: member) =>
    some (String.ofList (c :: qualifier), String.ofList (d :: member))
  | _ => none

def lookup (h : Heap) (i : FrameId) (name : String) : Except EvalError Value :=
  match h.value? i name with
  | some v => .ok v
  | none =>
    match qualifiedName? name with
    | some (qualifier, member) =>
      match h.value? i qualifier with
      | some (.nameSpace _ title members) =>
        match members.find? member with
        | some v => .ok v
        | none => .error (.memberNotExported title member)
      | _ => .error (.unbound name)
    | none => .error (.unbound name)

def push (h : Heap) (f : Frame) : Heap := ⟨h.frames.push f⟩

/-- The place of the next frame. -/
def next (h : Heap) : FrameId := h.frames.size

/-- An empty frame inside frame `i`. -/
def innerFrame (h : Heap) (i : FrameId) : Frame := ⟨.empty, h.chain i⟩

/-- Binds a name in the frame itself. -/
def bind (h : Heap) (i : FrameId) (name : String) (v : Value) : Heap :=
  ⟨h.frames.modify i fun f => { f with bindings := f.bindings.insert name v }⟩

@[simp] theorem next_push (h : Heap) (f : Frame) : (h.push f).next = h.next + 1 :=
  Array.size_push f

@[simp] theorem next_bind (h : Heap) (i : FrameId) (name : String) (v : Value) :
    (h.bind i name v).next = h.next :=
  Array.size_modify

theorem frame?_push_of_lt {h : Heap} {f : Frame} {i : FrameId} (old : i < h.next) :
    (h.push f).frame? i = h.frame? i :=
  Array.getElem?_push_lt old |>.trans (Array.getElem?_eq_getElem old).symm

theorem frame?_push_next (h : Heap) (f : Frame) : (h.push f).frame? h.next = some f :=
  Array.getElem?_push_size

theorem frame?_bind (h : Heap) (i : FrameId) (name : String) (v : Value) (j : FrameId) :
    (h.bind i name v).frame? j =
      if i = j then (h.frame? j).map fun f => { f with bindings := f.bindings.insert name v }
      else h.frame? j :=
  Array.getElem?_modify

theorem bindings_push_of_lt {h : Heap} {f : Frame} {i : FrameId} (old : i < h.next) :
    (h.push f).bindings i = h.bindings i := by
  rw [bindings, frame?_push_of_lt old, bindings]

theorem outer_push_of_lt {h : Heap} {f : Frame} {i : FrameId} (old : i < h.next) :
    (h.push f).outer i = h.outer i := by
  rw [outer, frame?_push_of_lt old, outer]

/-- Binding a name moves no frame. -/
@[simp] theorem outer_bind (h : Heap) (i : FrameId) (name : String) (v : Value) (j : FrameId) :
    (h.bind i name v).outer j = h.outer j := by
  rw [outer, outer, frame?_bind]
  split <;> cases h.frame? j <;> rfl

/-- Binding a name changes one frame only. -/
theorem bindings_bind_of_ne {h : Heap} {i j : FrameId} (other : i ≠ j) (name : String)
    (v : Value) : (h.bind i name v).bindings j = h.bindings j := by
  rw [bindings, bindings, frame?_bind, if_neg other]

theorem bindings_bind_self {h : Heap} {i : FrameId} (old : i < h.next) (name : String)
    (v : Value) : (h.bind i name v).bindings i = (h.bindings i).insert name v := by
  have found : h.frame? i = some h.frames[i] := Array.getElem?_eq_getElem old
  simp [bindings, frame?_bind, found]

/-- The bindings of a function's formals to its arguments. -/
def arguments : List (String × Value) → Except EvalError (Bindings Value) :=
  List.foldlM (fun b entry =>
    match (Label.text entry.1).name? with
    | some name => .ok (b.insert name entry.2)
    | none => .error (.undefinable (.text entry.1))) .empty

/-- The frame for the body of a function, inside the frame that the function was created in. -/
def bodyFrame (h : Heap) (c : Closure) (args : List Value) : Except EvalError Frame :=
  if args.length = c.formals.length then
    (arguments (c.formals.zip args)).map (⟨·, h.chain c.scope⟩)
  else .error (.closureArity c.name c.formals.length args.length)

def bracesOf (b : Bindings Value) : String :=
  "\x7b" ++ String.intercalate ", " (b.entries.map fun (name, v) => name ++ ": " ++ v.display) ++
    "\x7d"

/-- One frame, with a mark when there are frames around it. -/
def display (h : Heap) (i : FrameId) : String :=
  bracesOf (h.bindings i) ++ (if (h.outer i).isEmpty then "" else " -> ...")

/-- The whole chain of a frame. -/
def displayChain (h : Heap) (i : FrameId) : String :=
  "<Environment chain: " ++ arrows ((h.chain i).map fun j => bracesOf (h.bindings j)) ++ ">"

example : qualifiedName? "a.b.c" = some ("a", "b.c") ∧ qualifiedName? ".b" = none ∧
    qualifiedName? "a." = none := by decide

end Heap

end ModularLisp
