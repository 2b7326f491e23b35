import ModularLisp.Number.Notation
import ModularLisp.Text.Quoted

/-!
# Labels

What a caller may offer as the name of a binding. Only a text that is not empty names one.
-/

namespace ModularLisp

inductive Label where
  | text (name : String)
  | absent
  | flag (b : Bool)
  | integer (n : Int)
  | real (x : Binary64)
  deriving DecidableEq

namespace Label

def name? : Label → Option String
  | .text name => if name = "" then none else some name
  | _ => none

def describe : Label → String
  | .text name => Text.quoted name
  | .absent => "None"
  | .flag b => if b then "True" else "False"
  | .integer n => toString n
  | .real x => x.text

end Label

end ModularLisp
