/-!
# Blank characters

The white space that separates written forms: the horizontal and vertical controls, the four
information separators, the next-line control and every Unicode space, line and paragraph separator.
-/

namespace ModularLisp.Text

def isBlank (c : Char) : Bool :=
  let n := c.toNat
  (0x09 ≤ n && n ≤ 0x0d) || (0x1c ≤ n && n ≤ 0x20) || n == 0x85 || n == 0xa0 || n == 0x1680 ||
    (0x2000 ≤ n && n ≤ 0x200a) || n == 0x2028 || n == 0x2029 || n == 0x202f || n == 0x205f ||
    n == 0x3000

/-- The blanks that may surround an integer: all but the four information separators. -/
def isPadding (c : Char) : Bool := isBlank c && !(0x1c ≤ c.toNat && c.toNat ≤ 0x1f)

/-- Drops what satisfies a test at both ends. -/
def trim (drops : Char → Bool) (cs : List Char) : List Char :=
  ((cs.dropWhile drops).reverse.dropWhile drops).reverse

theorem trim_of_none {drops : Char → Bool} {cs : List Char} (h : ∀ c ∈ cs, drops c = false) :
    trim drops cs = cs := by
  have unchanged : ∀ ds : List Char, (∀ c ∈ ds, drops c = false) → ds.dropWhile drops = ds := by
    intro ds kept
    cases ds with
    | nil => rfl
    | cons d rest => simp [kept d (List.mem_cons_self ..)]
  rw [trim, unchanged cs h, unchanged cs.reverse fun c hc => h c (List.mem_reverse.1 hc),
    List.reverse_reverse]

/-- Drops the blanks at both ends. -/
def trimBlanks (text : String) : String := String.ofList (trim isBlank text.toList)

example : isBlank '\n' = true ∧ isBlank '\u3000' = true ∧ isBlank '\u200b' = false := by decide
example : trimBlanks " a b\t" = "a b" := by cbv

end ModularLisp.Text
