import ModularLisp.Error

/-!
# Loaders

A loader finds the source behind a file name. The canonical name tells whether two file names mean
the same source. A loader fails with an error of its own or with a failure of its host.
-/

namespace ModularLisp

inductive LoadFailure where
  | error (e : Error)
  | host (reason : String)

structure Loader where
  canonicalName : String → Except LoadFailure String
  forms : String → Except LoadFailure (List Expr)

/-- A failure of the host is reported for the file that was asked for. -/
def LoadFailure.toError (filename : String) : LoadFailure → Error
  | .error e => e
  | .host reason => .load (.hostFailure filename reason)

namespace Loader

/-- All expressions of a source, as a loader's answer. -/
def formsOf (source : String) : Except LoadFailure (List Expr) :=
  (Expr.readAll source).mapError fun e => .error (.read e)

/-- Serves sources from a table; the names are keys and nothing more. -/
def ofTable (sources : Bindings String) : Loader where
  canonicalName filename :=
    match sources.find? filename with
    | some _ => .ok filename
    | none => .error (.error (.load (.notFound filename)))
  forms filename :=
    match sources.find? filename with
    | some source => formsOf source
    | none => .error (.error (.load (.notFound filename)))

/-- A loader whose host fails for some names, when they are looked for or when they are read. -/
def failing (lookingFor reading : Bindings String) (l : Loader) : Loader where
  canonicalName filename :=
    match lookingFor.find? filename with
    | some reason => .error (.host reason)
    | none => l.canonicalName filename
  forms filename :=
    match reading.find? filename with
    | some reason => .error (.host reason)
    | none => l.forms filename

end Loader

end ModularLisp
