import ModularLisp.Proofs.Calls

/-!
# Fuel

More fuel changes no result: an evaluation lacks fuel, or it gives the same with every greater
amount. This rests on the calls of a step, which decide its result.
-/

namespace ModularLisp.Evaluation

variable {loader : Option Loader} {e : Expr} {scope : FrameId} {s t u : State} {m n : Nat}

/-- What makes its calls to an evaluator gives the same over any that answers whatever the first one
answers. -/
theorem Makes.same {α : Type} {x : Evaluator → Action α} {calls : Evaluator → Calls}
    {ev ev' : Evaluator} (makes : Makes x calls)
    (answers : ∀ e scope s, ev e scope s ≠ .outOfFuel → ev' e scope s = ev e scope s)
    (ended : x ev s ≠ .outOfFuel) : x ev' s = x ev s := by
  refine makes.congr ev ev' s fun c call => ?_
  exact answers c.expr c.scope c.state fun lacking => ended (makes.lacks ev s c call lacking)

theorem eval_mono (more : n ≤ m) (e : Expr) (scope : FrameId) (s : State)
    (ended : eval loader n e scope s ≠ .outOfFuel) :
    eval loader m e scope s = eval loader n e scope s := by
  induction n generalizing m e scope s with
  | zero => exact absurd rfl ended
  | succ n ih =>
    cases m with
    | zero => cases more
    | succ m => exact (step_makes loader e scope).same (ih (Nat.le_of_succ_le_succ more)) ended

theorem eval_ends_unique (first : (eval loader m e scope).Ends s t)
    (second : (eval loader n e scope).Ends s u) : t = u := by
  rw [Action.Ends] at first second
  rcases Nat.le_total m n with more | more
  · rw [eval_mono more e scope s (Action.Ends.ne_outOfFuel first)] at second
    exact Option.some.inj (first.symm.trans second)
  · rw [eval_mono more e scope s (Action.Ends.ne_outOfFuel second)] at first
    exact Option.some.inj (first.symm.trans second)

/-- If an evaluation ends then so do its calls. -/
theorem call_ends {c : Call} (ended : (eval loader (n + 1) e scope).Ends s t)
    (call : c ∈ stepCalls loader (eval loader n) e scope s) :
    ∃ u, (eval loader n c.expr c.scope).Ends c.state u :=
  Action.exists_ends fun lacking =>
    ended.ne_outOfFuel ((step_makes loader e scope).lacks (eval loader n) s c call lacking)

theorem forms_call_ends {c : Call} {forms : List Expr}
    (ended : (evalForms loader n scope forms).Ends s t)
    (call : c ∈ sequenceCalls (eval loader n) scope forms s) :
    ∃ u, (eval loader n c.expr c.scope).Ends c.state u :=
  Action.exists_ends fun lacking =>
    ended.ne_outOfFuel ((evalBody_makes scope .nil forms).lacks (eval loader n) s c call lacking)

/-- If an evaluation gives a value then so do its calls: nothing recovers from an error. -/
theorem call_succeeds {c : Call} {v : Value} (done : eval loader (n + 1) e scope s = .ok v t)
    (call : c ∈ stepCalls loader (eval loader n) e scope s) :
    ∃ w u, eval loader n c.expr c.scope c.state = .ok w u :=
  (step_makes loader e scope).passes (eval loader n) s v t done c call

end ModularLisp.Evaluation
