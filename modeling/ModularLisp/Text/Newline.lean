/-!
# Line endings

A carriage return, alone or before a line feed, ends a line just as a line feed does.
-/

namespace ModularLisp.Text

/-- Every line ending written as one line feed. -/
def unifyNewlines : List Char → List Char
  | [] => []
  | '\r' :: '\n' :: rest => '\n' :: unifyNewlines rest
  | '\r' :: rest => '\n' :: unifyNewlines rest
  | c :: rest => c :: unifyNewlines rest

theorem unifyNewlines_of_no_return {cs : List Char} (h : '\r' ∉ cs) : unifyNewlines cs = cs := by
  induction cs with
  | nil => rfl
  | cons c rest ih =>
    simp only [List.mem_cons, not_or] at h
    rw [unifyNewlines]
    · rw [ih h.2]
    · intro _ e; exact absurd e.symm h.1
    · intro e; exact absurd e.symm h.1

example : unifyNewlines ['a', '\r', '\n', '\r', 'b'] = ['a', '\n', '\n', 'b'] := by decide

end ModularLisp.Text
