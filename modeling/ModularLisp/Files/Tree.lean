import ModularLisp.Bindings
import ModularLisp.Files.Path

/-!
# Directory trees

A tree of directories and regular files without links. A location is the list of names that leads
from the root to a node. A path is walked component by component; `..` goes back to the parent, so
the directories on the way have to exist.
-/

namespace ModularLisp

inductive Node where
  | file (octets : List UInt8)
  | directory (entries : Bindings Node)

abbrev Location := List String

namespace Node

instance : Inhabited Node := ⟨.directory .empty⟩

def emptyDirectory : Node := .directory .empty

def child? : Node → String → Option Node
  | .directory entries, name => entries.find? name
  | .file _, _ => none

def isDirectory : Node → Bool
  | .directory _ => true
  | .file _ => false

/-- The node at a location. -/
def at? (n : Node) : Location → Option Node
  | [] => some n
  | name :: rest => (n.child? name).bind fun m => m.at? rest

/-- Puts a node at a location, with the directories that lead to it. -/
def put (new : Node) : Location → Node → Node
  | [], _ => new
  | name :: rest, .directory entries =>
    .directory (entries.insert name (put new rest ((entries.find? name).getD emptyDirectory)))
  | name :: rest, .file _ => .directory (Bindings.empty.insert name (put new rest emptyDirectory))

/-- Makes sure that there is a directory at a location. -/
def makeDirectory (location : Location) (n : Node) : Node :=
  match n.at? location with
  | some m => if m.isDirectory then n else put emptyDirectory location n
  | none => put emptyDirectory location n

def remove : Location → Node → Node
  | [name], .directory entries => .directory ⟨entries.entries.filter (·.1 ≠ name)⟩
  | name :: rest, .directory entries =>
    match entries.find? name with
    | some m => .directory (entries.insert name (remove rest m))
    | none => .directory entries
  | _, n => n

inductive Walk where
  | arrived (location : Location)
  | missing
  | nameTooLong
  deriving DecidableEq, Repr

/-- The longest name, in octets, that can be looked up. -/
def longestName : Nat := 255

/-- The longest path, in octets, that can be looked up. -/
def longestPath : Nat := 4095

/-- Where the components lead from a location. -/
def walk (root : Node) (location : Location) : List String → Walk
  | [] => .arrived location
  | part :: rest =>
    if ((root.at? location).map isDirectory).getD false then
      if part = ".." then walk root location.dropLast rest
      else if longestName < part.utf8ByteSize then .nameTooLong
      else if (root.at? (location ++ [part])).isSome then walk root (location ++ [part]) rest
      else .missing
    else .missing

/-- Where a path leads; a relative one starts from the working directory. -/
def locate (root : Node) (workingDirectory : Location) (p : Path) : Walk :=
  if p.toString.toList.contains '\x00' then .missing
  else if longestPath < p.toString.utf8ByteSize then .nameTooLong
  else walk root (if p.isAbsolute then [] else workingDirectory) p.parts

end Node

end ModularLisp
