import ModularLisp.Syntax.Expr

/-!
# Declarations

A parenthesised list headed by `module`, `import`, `load` or `require` is a declaration, and must
have that declaration's shape:

    (module name (export symbol ...) form ...)
    (import name)
    (load "file")
    (require "file")   (require "file" :as alias)   (require "file" :only (symbol ...))
-/

namespace ModularLisp

inductive MalformedForm where
  | moduleTooShort
  | moduleName
  | exportListKind
  | exportListEmpty
  | exportListHead
  | exportedName
  | importCount
  | importName
  | loadCount
  | loadFilename
  | requireTooShort
  | requireFilename
  | modifierCount
  | modifierKind
  | modifierUnknown (name : String)
  | aliasKind
  | onlyKind
  | onlyName
  deriving DecidableEq, Repr

def MalformedForm.message : MalformedForm → String
  | .moduleTooShort => "module requires at least name, export list, and body"
  | .moduleName => "module name must be a symbol"
  | .exportListKind => "module export list must be a list"
  | .exportListEmpty => "export list cannot be empty"
  | .exportListHead => "export list must start with 'export'"
  | .exportedName => "exported names must be symbols"
  | .importCount => "import requires exactly one module name"
  | .importName => "import module name must be a symbol"
  | .loadCount => "load requires exactly one filename"
  | .loadFilename => "load filename must be a string"
  | .requireTooShort => "require requires at least a filename"
  | .requireFilename => "require filename must be a string"
  | .modifierCount =>
    "require modifier expects exactly one argument: :as alias or :only (names)"
  | .modifierKind => "require modifier must be a keyword (:as or :only)"
  | .modifierUnknown name => "require modifier must be :as or :only, got :" ++ name
  | .aliasKind => "require :as alias must be a symbol"
  | .onlyKind => "require :only expects a list of symbols"
  | .onlyName => "require :only list must contain only symbols"

namespace Expr

def symbolName? : Expr → Option String
  | .symbol name => some name
  | _ => none

/-- The elements of a list or of a bracketed sequence. -/
def elements? : Expr → Option (List Expr)
  | .list es => some es
  | .bracket es => some es
  | _ => none

end Expr

namespace Declaration

def symbolNames (fault : MalformedForm) : List Expr → Except MalformedForm (List String)
  | [] => .ok []
  | e :: rest =>
    match e.symbolName? with
    | some name => (symbolNames fault rest).map (name :: ·)
    | none => .error fault

/-- The names of an export list, its head included in the argument. -/
def exportNames : Expr → Except MalformedForm (List String)
  | .list (head :: names) =>
    if head.symbolName? = some "export" then symbolNames .exportedName names
    else .error .exportListHead
  | .list [] => .error .exportListEmpty
  | _ => .error .exportListKind

def moduleOf : List Expr → Except MalformedForm Expr
  | name :: exports :: form :: forms =>
    match name.symbolName? with
    | some name => (exportNames exports).map (Expr.moduleDecl name · (form :: forms))
    | none => .error .moduleName
  | _ => .error .moduleTooShort

def importOf : List Expr → Except MalformedForm Expr
  | [.symbol name] => .ok (.importDecl name)
  | [_] => .error .importName
  | _ => .error .importCount

def loadOf : List Expr → Except MalformedForm Expr
  | [.string filename] => .ok (.loadDecl filename)
  | [_] => .error .loadFilename
  | _ => .error .loadCount

def visibilityOf (modifier payload : Expr) : Except MalformedForm Visibility :=
  match modifier with
  | .keyword name =>
    if name = "as" then
      match payload.symbolName? with
      | some qualifier => .ok (.qualified qualifier)
      | none => .error .aliasKind
    else if name = "only" then
      match payload.elements? with
      | some es => (symbolNames .onlyName es).map .only
      | none => .error .onlyKind
    else .error (.modifierUnknown name)
  | _ => .error .modifierKind

def requireOf : List Expr → Except MalformedForm Expr
  | [] => .error .requireTooShort
  | .string filename :: modifiers =>
    match modifiers with
    | [] => .ok (.requireDecl filename .all)
    | [modifier, payload] => (visibilityOf modifier payload).map (.requireDecl filename)
    | _ => .error .modifierCount
  | _ :: _ => .error .requireFilename

/-- The reader of a declaration's arguments, by the symbol that heads it. -/
def reader? (head : String) : Option (List Expr → Except MalformedForm Expr) :=
  if head = "module" then some moduleOf
  else if head = "import" then some importOf
  else if head = "load" then some loadOf
  else if head = "require" then some requireOf
  else none

/-- What a parenthesised sequence denotes: a declaration if its head names one, else a list. -/
def ofElements (elements : List Expr) : Except MalformedForm Expr :=
  match elements with
  | .symbol head :: arguments =>
    match reader? head with
    | some read => read arguments
    | none => .ok (.list elements)
  | _ => .ok (.list elements)

end Declaration

end ModularLisp
