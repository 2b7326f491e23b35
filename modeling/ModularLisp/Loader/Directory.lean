import ModularLisp.Files.Tree
import ModularLisp.Loader.Basic
import ModularLisp.Text.Blank
import ModularLisp.Text.Newline

/-!
# Sources in a directory tree

A relative file name is searched under each root in order and must lead to a regular file. The
canonical name is the absolute path of the place that was found. Files hold UTF-8 text.
-/

namespace ModularLisp

/-- A tree with a working directory and the roots that relative names are searched under. -/
structure SourceTree where
  root : Node
  workingDirectory : Location
  searchRoots : List Path

namespace SourceTree

/-- The roots of a search path: its parts between colons, blanks trimmed, empty ones dropped. -/
def rootsOfSearchPath (text : String) : List Path :=
  ((text.splitOn ":").map Text.trimBlanks).filter (· ≠ "") |>.map Path.ofString

/-- Given roots, else those of the search path, else the working directory. -/
def chooseRoots (given : Option (List String)) (searchPath : Option String)
    (workingDirectory : Location) : List Path :=
  match given, searchPath with
  | some roots, _ => roots.map Path.ofString
  | none, some text => if text = "" then [.absolute workingDirectory] else rootsOfSearchPath text
  | none, none => [.absolute workingDirectory]

/-- The paths that a file name may stand for, in the order of the search. -/
def candidates (t : SourceTree) (p : Path) : List Path :=
  if p.isAbsolute then [p] else t.searchRoots.map (·.join p)

def fileAt? (t : SourceTree) (location : Location) : Option (List UInt8) :=
  match t.root.at? location with
  | some (.file octets) => some octets
  | _ => none

/-- How the host reports a name it cannot look up. -/
def nameTooLong (p : Path) : LoadFailure :=
  .host ("[Errno 36] File name too long: " ++ Text.quoted p.toString)

/-- The first candidate that leads to a regular file. -/
def firstFile (t : SourceTree) : List Path → Except LoadFailure (Option (Location × List UInt8))
  | [] => .ok none
  | p :: rest =>
    match t.root.locate t.workingDirectory p with
    | .nameTooLong => .error (nameTooLong p)
    | .missing => firstFile t rest
    | .arrived location =>
      match t.fileAt? location with
      | some octets => .ok (some (location, octets))
      | none => firstFile t rest

def resolve (t : SourceTree) (filename : String) :
    Except LoadFailure (Location × List UInt8) :=
  match t.firstFile (t.candidates (.ofString filename)) with
  | .error failure => .error failure
  | .ok (some found) => .ok found
  | .ok none =>
    .error (.error (.load (.notFoundUnder filename (t.searchRoots.map (·.toString)))))

/-- The text of a file, every line ending written as one line feed. -/
def decode (filename : String) (octets : List UInt8) : Except LoadFailure String :=
  match Text.Utf8.decode octets with
  | .ok cs => .ok (String.ofList (Text.unifyNewlines cs))
  | .error malformed => .error (.error (.load (.notUtf8 filename malformed)))

end SourceTree

def Loader.ofTree (t : SourceTree) : Loader where
  canonicalName filename := do
    let (location, _) ← t.resolve filename
    .ok (Path.absolute location).toString
  forms filename := do
    let (_, octets) ← t.resolve filename
    Loader.formsOf (← SourceTree.decode filename octets)

end ModularLisp
