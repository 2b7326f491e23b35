/-!
# Paths

A path is an anchor and its components. Empty components and single points are dropped, `..` is
kept, and exactly two slashes in front are an anchor of their own.
-/

namespace ModularLisp

inductive Anchor where
  | relative
  | root
  | doubleRoot
  deriving DecidableEq, Repr

def Anchor.text : Anchor → String
  | .relative => ""
  | .root => "/"
  | .doubleRoot => "//"

structure Path where
  anchor : Anchor
  parts : List String
  deriving DecidableEq, Repr

namespace Path

/-- The pieces between slashes. -/
def pieces : List Char → List (List Char)
  | [] => [[]]
  | c :: rest =>
    if c = '/' then [] :: pieces rest
    else
      match pieces rest with
      | piece :: more => (c :: piece) :: more
      | [] => [[c]]

/-- A text without slashes is one piece. -/
theorem pieces_of_no_slash {cs : List Char} (h : '/' ∉ cs) : pieces cs = [cs] := by
  induction cs with
  | nil => rfl
  | cons c rest ih =>
    simp only [List.mem_cons, not_or] at h
    simp only [pieces, if_neg (Ne.symm h.1), ih h.2]

def anchorOf (cs : List Char) : Anchor :=
  match (cs.takeWhile (· = '/')).length with
  | 0 => .relative
  | 2 => .doubleRoot
  | _ => .root

def isNamed (part : String) : Bool := part ≠ "" && part ≠ "."

def ofString (text : String) : Path :=
  ⟨anchorOf text.toList, ((pieces text.toList).map String.ofList).filter isNamed⟩

def isAbsolute (p : Path) : Bool := p.anchor ≠ .relative

def toString (p : Path) : String :=
  let text := p.anchor.text ++ String.intercalate "/" p.parts
  if text = "" then "." else text

instance : ToString Path := ⟨toString⟩

/-- A path below another one, unless it is absolute itself. -/
def join (base p : Path) : Path :=
  if p.isAbsolute then p else ⟨base.anchor, base.parts ++ p.parts⟩

/-- The absolute path with the given components. -/
def absolute (parts : List String) : Path := ⟨.root, parts⟩

end Path

example : (Path.ofString "a//./b/../c/").parts = ["a", "b", "..", "c"] := by decide
example : (Path.ofString "//a").anchor = .doubleRoot ∧ (Path.ofString "///a").anchor = .root := by
  decide
example : (Path.ofString "./").toString = "." := by decide

end ModularLisp
