import ModularLisp.Number.Notation
import ModularLisp.Text.Quoted

/-!
# Expressions

The trees that reading produces. Declarations are nodes of their own, and bracketed sequences stay
apart from lists. An integer literal too long for floating point keeps its source text.
-/

namespace ModularLisp

/-- How the exports of a required file become visible. -/
inductive Visibility where
  | all
  | qualified (qualifier : String)
  | only (names : List String)
  deriving DecidableEq, Repr

inductive Expr where
  | number (x : Binary64)
  | bigNumber (text : String)
  | string (text : String)
  | boolean (b : Bool)
  | symbol (name : String)
  | keyword (name : String)
  | list (elements : List Expr)
  | bracket (elements : List Expr)
  | moduleDecl (name : String) (exports : List String) (body : List Expr)
  | importDecl (name : String)
  | loadDecl (filename : String)
  | requireDecl (filename : String) (visibility : Visibility)

instance : Inhabited Expr := ⟨.list []⟩

/-- A require with both modifiers. -/
structure ConflictingModifiers where
  deriving DecidableEq, Repr

def ConflictingModifiers.message (_ : ConflictingModifiers) : String :=
  "require accepts either :as or :only, not both"

def Visibility.ofModifiers (qualifier : Option String) (names : Option (List String)) :
    Except ConflictingModifiers Visibility :=
  match qualifier, names with
  | some _, some _ => .error ⟨⟩
  | some qualifier, none => .ok (.qualified qualifier)
  | none, some names => .ok (.only names)
  | none, none => .ok .all

namespace Expr

/-- A sequence in parentheses; one element alone is followed by a comma. -/
def tuple : List String → String
  | [] => "()"
  | [x] => "(" ++ x ++ ",)"
  | xs => "(" ++ String.intercalate ", " xs ++ ")"

/-- A node: its name and its labelled parts. -/
def node (name : String) (parts : List (String × String)) : String :=
  let labelled := parts.map fun (label, part) => label ++ "=" ++ part
  name ++ "(" ++ String.intercalate ", " labelled ++ ")"

def names (xs : List String) : String := tuple (xs.map Text.quoted)

def describeVisibility : Visibility → List (String × String)
  | .all => [("as_alias", "None"), ("only", "None")]
  | .qualified qualifier => [("as_alias", Text.quoted qualifier), ("only", "None")]
  | .only xs => [("as_alias", "None"), ("only", names xs)]

mutual

def describe : Expr → String
  | .number x => node "NumberExpr" [("value", x.text)]
  | .bigNumber text => node "BigNumberExpr" [("value", Text.quoted text)]
  | .string text => node "StringExpr" [("value", Text.quoted text)]
  | .boolean b => node "BooleanExpr" [("value", if b then "True" else "False")]
  | .symbol name => node "SymbolExpr" [("name", Text.quoted name)]
  | .keyword name => node "KeywordExpr" [("value", Text.quoted name)]
  | .list elements => node "ListExpr" [("elements", tuple (describeAll elements))]
  | .bracket elements => node "BracketExpr" [("elements", tuple (describeAll elements))]
  | .moduleDecl name exports body =>
    node "ModuleExpr" [("name", Text.quoted name), ("exports", names exports),
      ("body", tuple (describeAll body))]
  | .importDecl name => node "ImportExpr" [("module_name", Text.quoted name)]
  | .loadDecl filename => node "LoadExpr" [("filename", Text.quoted filename)]
  | .requireDecl filename visibility =>
    node "RequireExpr" (("filename", Text.quoted filename) :: describeVisibility visibility)

def describeAll : List Expr → List String
  | [] => []
  | e :: rest => describe e :: describeAll rest

end

/-- The short form: the source spelling where a node has one. -/
def display : Expr → String
  | .bigNumber text => text
  | .symbol name => name
  | .keyword name => ":" ++ name
  | e => describe e

end Expr

example : Expr.describe (.list [.symbol "a"]) =
    "ListExpr(elements=(SymbolExpr(name='a'),))" := by decide +kernel

end ModularLisp
