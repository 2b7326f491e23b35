import ModularLisp.Proofs.Fuel

/-!
# Nested sequences and conditions flatten

A sequence, a conjunction or a disjunction goes through its operands and ends early at a value that
stops it. A form of the same kind among the operands ends early at the same values, and the outer
form then takes the same decision on the value that it is handed. So the operands of the inner form
may stand in its place.
-/

namespace ModularLisp

variable {α β : Type}

namespace SpecialForm

/-- The forms that go through their operands, without a scope of their own. -/
def passing : List SpecialForm := [.sequence, .conjunction, .disjunction]

/-- The value of the form without operands. -/
def start : SpecialForm → Value
  | .conjunction => .boolean true
  | .disjunction => .boolean false
  | _ => .nil

/-- The values that end the form early. -/
def stops : SpecialForm → Value → Bool
  | .conjunction => fun v => !v.isTruthy
  | .disjunction => Value.isTruthy
  | _ => fun _ => false

theorem stops_start {form : SpecialForm} (passing : form ∈ passing) :
    form.stops form.start = false := by
  simp only [SpecialForm.passing, List.mem_cons, List.not_mem_nil, or_false] at passing
  rcases passing with rfl | rfl | rfl <;> rfl

end SpecialForm

/-- Whatever the first action comes to, the second one comes to too. -/
def Action.Below (x y : Action α) : Prop := ∀ s, x s ≠ .outOfFuel → y s = x s

theorem Action.Below.bind {x y : Action α} (first : x.Below y) {f g : α → Action β}
    (later : ∀ a, (f a).Below (g a)) : (x >>= f).Below (y >>= g) := by
  intro s ended
  cases hx : x s with
  | ok a t =>
    have hy := (first s (by rw [hx]; exact nofun)).trans hx
    rw [bind_ok hx] at ended ⊢
    rw [bind_ok hy, later a t ended]
  | error e t =>
    have hy := (first s (by rw [hx]; exact nofun)).trans hx
    rw [bind_error hx, bind_error hy]
  | outOfFuel => exact absurd (bind_outOfFuel hx) ended

theorem Action.below_refl (x : Action α) : x.Below x := fun _ _ => rfl

namespace Evaluation

open ModularLisp.Action

variable {loader : Option Loader} {ev ev' : Evaluator} {stops : Value → Bool} {scope : FrameId}
  {last : Value}

theorem evalBody_eq_evalUntil (ev : Evaluator) (scope : FrameId) (last : Value) (es : List Expr) :
    evalBody ev scope last es = evalUntil ev (fun _ => false) scope last es := by
  induction es generalizing last with
  | nil => rfl
  | cons e rest ih => simp only [evalBody, evalUntil, ih, Bool.false_eq_true, if_false]

theorem evalForm_passing {form : SpecialForm} (passing : form ∈ SpecialForm.passing)
    (ev : Evaluator) (scope : FrameId) (es : List Expr) :
    evalForm ev form es scope = evalUntil ev form.stops scope form.start es := by
  simp only [SpecialForm.passing, List.mem_cons, List.not_mem_nil, or_false] at passing
  rcases passing with rfl | rfl | rfl
  · exact evalBody_eq_evalUntil ev scope .nil es
  · rfl
  · rfl

/-- Goes on with a value that does not stop. -/
def proceed (stops : Value → Bool) (next : Value → Action Value) (v : Value) : Action Value :=
  if stops v then Pure.pure v else next v

theorem evalUntil_append (goes : stops last = false) (es fs : List Expr) :
    evalUntil ev stops scope last (es ++ fs) =
      evalUntil ev stops scope last es >>=
        proceed stops fun v => evalUntil ev stops scope v fs := by
  induction es generalizing last with
  | nil =>
    change _ = proceed stops (fun v => evalUntil ev stops scope v fs) last
    rw [proceed, goes]
    rfl
  | cons e rest ih =>
    simp only [List.cons_append, evalUntil, bind_assoc]
    congr 1
    funext v
    cases stopped : stops v with
    | true =>
      change Pure.pure v = proceed stops (fun w => evalUntil ev stops scope w fs) v
      rw [proceed, stopped, if_pos rfl]
    | false => exact ih stopped

/-- The value so far does not count when operands are left. -/
theorem evalUntil_of_ne_nil {es : List Expr} (nonempty : es ≠ []) (last next : Value) :
    evalUntil ev stops scope last es = evalUntil ev stops scope next es := by
  cases es with
  | nil => exact absurd rfl nonempty
  | cons e rest => rfl

/-- Goes through some operands, then does `inner` for a value, then goes through further ones. -/
def around (ev : Evaluator) (stops : Value → Bool) (scope : FrameId) (start : Value)
    (before : List Expr) (inner : Action Value) (after : List Expr) : Action Value :=
  evalUntil ev stops scope start before >>= proceed stops fun _ =>
    inner >>= proceed stops fun w => evalUntil ev stops scope w after

theorem evalUntil_operand (goes : stops last = false) (before after : List Expr) (e : Expr) :
    evalUntil ev stops scope last (before ++ e :: after) =
      around ev stops scope last before (ev e scope) after :=
  evalUntil_append goes before (e :: after)

theorem evalUntil_operands (goes : stops last = false) (before after : List Expr)
    {inside : List Expr} (nonempty : inside ≠ []) :
    evalUntil ev stops scope last (before ++ inside ++ after) =
      around ev stops scope last before (evalUntil ev stops scope last inside) after := by
  rw [List.append_assoc, evalUntil_append goes before, around]
  congr 1
  funext v
  cases stopped : stops v with
  | true => simp only [proceed, stopped, if_true]
  | false =>
    simp only [proceed, stopped, Bool.false_eq_true, if_false]
    rw [evalUntil_append stopped, evalUntil_of_ne_nil nonempty v last]

section Below

variable (answers : ∀ e scope, (ev e scope).Below (ev' e scope))

include answers

theorem evalUntil_below (stops : Value → Bool) (scope : FrameId) (last : Value)
    (es : List Expr) :
    (evalUntil ev stops scope last es).Below (evalUntil ev' stops scope last es) := fun _ =>
  (evalUntil_makes scope stops last es).same answers

theorem around_below {inner inner' : Action Value} (below : inner.Below inner')
    (stops : Value → Bool) (start : Value) (before after : List Expr) :
    (around ev stops scope start before inner after).Below
      (around ev' stops scope start before inner' after) := by
  have proceeds : ∀ {f g : Value → Action Value}, (∀ v, (f v).Below (g v)) →
      ∀ v, (proceed stops f v).Below (proceed stops g v) := by
    intro f g each v
    rw [proceed, proceed]
    cases stops v with
    | true => exact below_refl _
    | false => exact each v
  refine (evalUntil_below answers stops scope start before).bind (proceeds fun _ => ?_)
  exact below.bind (proceeds fun w => evalUntil_below answers stops scope w after)

end Below

theorem eval_below (loader : Option Loader) {n m : Nat} (more : n ≤ m) (e : Expr)
    (scope : FrameId) : (eval loader n e scope).Below (eval loader m e scope) :=
  eval_mono more e scope

section Forms

variable {form : SpecialForm} (passing : form ∈ SpecialForm.passing) {name : String}
  (named : SpecialForm.ofName? name = some form)

include passing named

/-- A form by its name goes through its operands with one unit of fuel less. -/
theorem eval_passing (loader : Option Loader) (fuel : Nat) (es : List Expr) (scope : FrameId) :
    eval loader (fuel + 1) (.list (.symbol name :: es)) scope =
      evalUntil (eval loader fuel) form.stops scope form.start es := by
  simp only [eval, step, Expr.symbolName?, Option.bind_some, named,
    evalForm_passing passing]

variable (before after : List Expr) (loader : Option Loader) (fuel : Nat) (scope : FrameId)

theorem eval_spliced {inside : List Expr} (nonempty : inside ≠ []) : eval loader (fuel + 1)
    (.list (.symbol name :: (before ++ inside ++ after))) scope =
      around (eval loader fuel) form.stops scope form.start before
        (evalUntil (eval loader fuel) form.stops scope form.start inside) after := by
  rw [eval_passing passing named, evalUntil_operands (SpecialForm.stops_start passing) before after
    nonempty]

theorem eval_nested {other : String} (namedOther : SpecialForm.ofName? other = some form)
    (inside : List Expr) : eval loader (fuel + 2)
    (.list (.symbol name :: (before ++ .list (.symbol other :: inside) :: after))) scope =
      around (eval loader (fuel + 1)) form.stops scope form.start before
        (evalUntil (eval loader fuel) form.stops scope form.start inside) after := by
  rw [eval_passing passing named, evalUntil_operand (SpecialForm.stops_start passing),
    eval_passing passing namedOther]

end Forms

/-- Nested forms flatten. A sequence, a conjunction or a disjunction with a form of the same kind
among its operands, by the same name or, for sequences, the other one, comes to an end exactly if it
does with that form's operands in place of the form, with the same value or error and in the same
state. -/
theorem nested_forms_flatten (loader : Option Loader) {form : SpecialForm}
    (passing : form ∈ SpecialForm.passing) {outer inner : String}
    (outerForm : SpecialForm.ofName? outer = some form)
    (innerForm : SpecialForm.ofName? inner = some form) (before after : List Expr)
    {inside : List Expr} (nonempty : inside ≠ []) (scope : FrameId) (s : State)
    {x : Result Value} (ended : x ≠ .outOfFuel) :
    (∃ fuel, eval loader fuel
        (.list (.symbol outer :: (before ++ .list (.symbol inner :: inside) :: after))) scope s =
          x) ↔
      ∃ fuel, eval loader fuel (.list (.symbol outer :: (before ++ inside ++ after))) scope s =
        x := by
  -- The inner form takes one unit of fuel more than its operands in its place.
  have nested := fun fuel => congrFun
    (eval_nested passing outerForm before after loader fuel scope innerForm inside) s
  have spliced := fun fuel => congrFun
    (eval_spliced passing outerForm before after loader fuel scope nonempty) s
  constructor
  · rintro ⟨fuel, rfl⟩
    have enough := eval_mono (Nat.le_add_right fuel 2) _ _ _ ended
    rw [← enough, nested] at ended ⊢
    have more := evalUntil_below (eval_below loader fuel.le_succ) form.stops scope form.start inside
    exact ⟨fuel + 2, (spliced (fuel + 1)).trans
      (around_below (fun _ _ => below_refl _) more form.stops form.start before after s ended)⟩
  · rintro ⟨fuel, rfl⟩
    have enough := eval_mono fuel.le_succ _ _ _ ended
    rw [← enough, spliced] at ended ⊢
    exact ⟨fuel + 2, (nested fuel).trans (around_below (eval_below loader fuel.le_succ)
      (below_refl _) form.stops form.start before after s ended)⟩

/-- `(and (set x "b") (and (set x false) (set x "c")) (set x "d"))`: the second operand of the inner
form and the last one of the outer form are never evaluated; and a sequence by both of its names. -/
theorem nested_forms_flatten_of_deciding_operand :
    let set : Expr → Expr := fun e => .list [.symbol "set", .symbol "x", e]
    let frame : Value → State := fun v => ⟨⟨#[⟨⟨[("x", v)]⟩, []⟩]⟩, .empty, .idle, 0⟩
    let before := [set (.string "b")]
    let inside := [set (.boolean false), set (.string "c")]
    let after := [set (.string "d")]
    (eval none 4 (.list (.symbol "and" :: (before ++ .list (.symbol "and" :: inside) :: after))) 0
        (frame .nil) = .ok (.boolean false) (frame (.boolean false)) ∧
      ∃ fuel, eval none fuel (.list (.symbol "and" :: (before ++ inside ++ after))) 0 (frame .nil) =
        .ok (.boolean false) (frame (.boolean false))) ∧
    (eval none 4 (.list (.symbol "do" :: (before ++ .list (.symbol "begin" :: inside) :: after))) 0
        (frame .nil) = .ok (.string "d") (frame (.string "d")) ∧
      ∃ fuel, eval none fuel (.list (.symbol "do" :: (before ++ inside ++ after))) 0 (frame .nil) =
        .ok (.string "d") (frame (.string "d"))) := by
  intro set frame before inside after
  have conjunction : eval none 4
      (.list (.symbol "and" :: (before ++ .list (.symbol "and" :: inside) :: after))) 0
      (frame .nil) = .ok (.boolean false) (frame (.boolean false)) := by rfl
  have sequence : eval none 4
      (.list (.symbol "do" :: (before ++ .list (.symbol "begin" :: inside) :: after))) 0
      (frame .nil) = .ok (.string "d") (frame (.string "d")) := by rfl
  have nonempty : inside ≠ [] := List.cons_ne_nil _ _
  have passing : SpecialForm.conjunction ∈ SpecialForm.passing ∧
      SpecialForm.sequence ∈ SpecialForm.passing := by decide
  have andForm : SpecialForm.ofName? "and" = some .conjunction := rfl
  have doForm : SpecialForm.ofName? "do" = some .sequence := rfl
  have beginForm : SpecialForm.ofName? "begin" = some .sequence := rfl
  have ended : ∀ (v : Value) t, Result.ok v t ≠ .outOfFuel := fun _ _ => nofun
  refine ⟨⟨conjunction, ?_⟩, ⟨sequence, ?_⟩⟩
  · exact (nested_forms_flatten none passing.1 andForm andForm before after nonempty 0 (frame .nil)
      (ended _ _)).mp ⟨4, conjunction⟩
  · exact (nested_forms_flatten none passing.2 doForm beginForm before after nonempty 0 (frame .nil)
      (ended _ _)).mp ⟨4, sequence⟩

end Evaluation

end ModularLisp
