import ModularLisp.Value.Basic

/-!
# Printed values

`display` is the plain text of a value, `written` its notation in source: there a string is quoted,
and inside a list every element is written.
-/

namespace ModularLisp

namespace Closure

def display (c : Closure) : String :=
  let label := c.name.getD ""
  "<lambda" ++ (if label = "" then "" else " " ++ label) ++
    " (" ++ String.intercalate " " c.formals ++ ")>"

end Closure

namespace Value

def escapeChar : Char → List Char
  | '\\' => ['\\', '\\']
  | '"' => ['\\', '"']
  | '\n' => ['\\', 'n']
  | c => [c]

def quotedString (text : String) : String :=
  String.ofList ('"' :: text.toList.flatMap escapeChar ++ ['"'])

mutual

def written : Value → String
  | .number x => x.display
  | .bigNumber n => toString n
  | .string text => quotedString text
  | .boolean b => if b then "true" else "false"
  | .keyword name => ":" ++ name
  | .symbol name => name
  | .list elements => "(" ++ String.intercalate " " (writtenAll elements) ++ ")"
  | .nil => "nil"
  | .closure _ c => c.display
  | .builtin _ b => "<builtin " ++ b.name ++ ">"
  | .nameSpace _ name _ => "<namespace " ++ name ++ ">"

def writtenAll : List Value → List String
  | [] => []
  | v :: rest => written v :: writtenAll rest

end

def display : Value → String
  | .string text => text
  | v => v.written

end Value

example : (Value.list [.string "a\"b", .keyword "k", .list []]).written = "(\"a\\\"b\" :k ())" := by
  decide +kernel
example : (Value.string "a\"b").display = "a\"b" := rfl

end ModularLisp
