import ModularLisp.Proofs.Ending
import ModularLisp.Session

/-!
# The evaluations inside an evaluation

`calls` lists what one step asks of the evaluator for its parts, in order and with the states it
asks in; `trace` adds what each of these asks in turn. The result of a step depends on the answers
to these calls and on no others, and a step lacks fuel as soon as one of its calls does.
-/

namespace ModularLisp

variable {α β : Type}

/-- The beginning of an evaluation. -/
structure Call where
  expr : Expr
  scope : FrameId
  state : State

def Call.answer (c : Call) (ev : Evaluator) : Result Value := ev c.expr c.scope c.state

/-- The calls of an action, by the state that it begins in. -/
abbrev Calls := State → List Call

namespace Calls

def none : Calls := fun _ => []

def one (e : Expr) (scope : FrameId) : Calls := fun s => [⟨e, scope, s⟩]

/-- The calls of an action and, if it gives a value, of what follows on it. -/
def andThen (calls : Calls) (x : Action α) (next : α → Calls) : Calls := fun s =>
  match x s with
  | .ok a t => calls s ++ next a t
  | _ => calls s

/-- What follows on an action without calls. -/
def after (x : Action α) (next : α → Calls) : Calls := none.andThen x next

variable {calls : Calls} {x : Action α} {next : α → Calls} {s t : State}

theorem andThen_ok {a : α} (h : x s = .ok a t) :
    calls.andThen x next s = calls s ++ next a t := by
  simp only [andThen, h]

theorem after_ok {a : α} (h : x s = .ok a t) : after x next s = next a t := andThen_ok h

end Calls

namespace Evaluation

open Calls

variable (loader : Option Loader) (ev : Evaluator)

def sequenceCalls (scope : FrameId) : List Expr → Calls
  | [] => none
  | e :: rest => (one e scope).andThen (ev e scope) fun _ => sequenceCalls scope rest

def untilCalls (stops : Value → Bool) (scope : FrameId) : List Expr → Calls
  | [] => none
  | e :: rest => (one e scope).andThen (ev e scope) fun v =>
    if stops v then none else untilCalls stops scope rest

def applyCalls (f : Value) (args : List Value) : Calls :=
  match f with
  | .closure _ c => after (Action.enter c args) fun scope => sequenceCalls ev scope c.body
  | _ => none

def applicationCalls (head : Expr) (arguments : List Expr) (scope : FrameId) : Calls :=
  (one head scope).andThen (ev head scope) fun f =>
    (sequenceCalls ev scope arguments).andThen (evalAll ev scope arguments) (applyCalls ev f)

/-- The calls of a definition or of a change. -/
def assignmentCalls (scope : FrameId) : List Expr → Calls
  | [target, e] =>
    match target.symbolName? with
    | some _ => one e scope
    | .none => none
  | _ => none

def bindingCalls (scope : FrameId) : List Expr → Calls
  | [] => none
  | binding :: rest => after (lift (bindingOf binding)) fun entry =>
    (one entry.2 scope).andThen (ev entry.2 scope) fun _ => bindingCalls scope rest

def letCalls (scope : FrameId) : List Expr → Calls
  | [] => none
  | header :: body =>
    match header.elements? with
    | some bindings => (bindingCalls ev scope bindings).andThen (evalBindings ev scope bindings)
      fun bound => after (Action.openScope scope) fun inner =>
        after (Action.defineAll inner bound) fun _ => sequenceCalls ev inner body
    | .none => none

def conditionalCalls (scope : FrameId) : List Expr → Calls
  | [condition, consequent] => (one condition scope).andThen (ev condition scope) fun v =>
    if v.isTruthy then one consequent scope else none
  | [condition, consequent, alternative] =>
    (one condition scope).andThen (ev condition scope) fun v =>
      if v.isTruthy then one consequent scope else one alternative scope
  | _ => none

def onlyListCalls (scope : FrameId) : List Expr → Calls
  | [e] => one e scope
  | _ => none

def consCalls (scope : FrameId) : List Expr → Calls
  | [head, tail] => sequenceCalls ev scope [head, tail]
  | _ => none

def formCalls (form : SpecialForm) (arguments : List Expr) (scope : FrameId) : Calls :=
  match form with
  | .quote | .lambda => none
  | .define | .set => assignmentCalls scope arguments
  | .conditional => conditionalCalls ev scope arguments
  | .bindLocally => letCalls ev scope arguments
  | .sequence | .list => sequenceCalls ev scope arguments
  | .conjunction => untilCalls ev (fun v => !v.isTruthy) scope arguments
  | .disjunction => untilCalls ev (fun v => v.isTruthy) scope arguments
  | .isEmpty | .length | .first | .rest => onlyListCalls scope arguments
  | .cons => consCalls ev scope arguments

def moduleCalls (body : List Expr) (scope : FrameId) : Calls :=
  after (Action.openScope scope) fun inner => sequenceCalls ev inner body

def requiredCalls (l : Loader) (filename : String) (scope : FrameId) : Calls :=
  after (fromLoader filename (l.forms filename)) fun forms =>
    after (Action.rootOf scope) fun root =>
      after (Action.openScope root) fun inner => sequenceCalls ev inner forms

def requireCalls (filename : String) (scope : FrameId) : Calls :=
  after (theLoader loader filename) fun l =>
    after (fromLoader filename (l.canonicalName filename)) fun key =>
      after (Action.cached? key) fun
        | some _ => none
        | .none => after (Action.beginRequire key) fun _ => requiredCalls ev l filename scope

def loadCalls (filename : String) (scope : FrameId) : Calls :=
  after (theLoader loader filename) fun l =>
    after (fromLoader filename (l.canonicalName filename)) fun key =>
      after (Action.beginLoad key) fun _ =>
        after (fromLoader filename (l.forms filename)) fun forms => sequenceCalls ev scope forms

/-- What one step asks of the evaluator. -/
def stepCalls (e : Expr) (scope : FrameId) : Calls :=
  match e with
  | .bracket elements => sequenceCalls ev scope elements
  | .list (head :: arguments) =>
    match head.symbolName?.bind SpecialForm.ofName? with
    | some form => formCalls ev form arguments scope
    | .none => applicationCalls ev head arguments scope
  | .moduleDecl _ _ body => moduleCalls ev body scope
  | .requireDecl filename _ => requireCalls loader ev filename scope
  | .loadDecl filename => loadCalls loader ev filename scope
  | _ => none

/-- An evaluation and all evaluations inside it, each before the ones inside it. -/
def trace : (fuel : Nat) → Call → List Call
  | 0, c => [c]
  | fuel + 1, c =>
    c :: (stepCalls loader (eval loader fuel) c.expr c.scope c.state).flatMap (trace fuel)

/-- All evaluations in the evaluation of forms one after the other. -/
def traceForms (fuel : Nat) (scope : FrameId) (forms : List Expr) (s : State) : List Call :=
  (sequenceCalls (eval loader fuel) scope forms s).flatMap (trace loader fuel)

section Runs

variable {loader ev} {scope : FrameId} {s t : State}

theorem expr_mem_of_mem_sequenceCalls {es : List Expr} {c : Call}
    (member : c ∈ sequenceCalls ev scope es s) : c.expr ∈ es := by
  induction es generalizing s with
  | nil => cases member
  | cons e rest ih =>
    dsimp only [sequenceCalls, Calls.andThen] at member
    split at member
    · rcases List.mem_append.mp member with first | later
      · rw [List.mem_singleton.mp first]
        exact List.mem_cons_self
      · exact List.mem_cons_of_mem e (ih later)
    · rw [List.mem_singleton.mp member]
      exact List.mem_cons_self

theorem sequenceCalls_append {es : List Expr} {last v : Value}
    (evaluated : evalBody ev scope last es s = .ok v t) (fs : List Expr) :
    sequenceCalls ev scope (es ++ fs) s =
      sequenceCalls ev scope es s ++ sequenceCalls ev scope fs t := by
  induction es generalizing last s with
  | nil =>
    cases evaluated
    rfl
  | cons e rest ih =>
    obtain ⟨w, u, first, later⟩ := Action.bind_eq_ok evaluated
    simp only [List.cons_append, sequenceCalls, andThen_ok first, ih later, List.append_assoc]

theorem traceForms_cons {fuel : Nat} {e : Expr} {v : Value}
    (evaluated : eval loader fuel e scope s = .ok v t) (rest : List Expr) :
    traceForms loader fuel scope (e :: rest) s =
      trace loader fuel ⟨e, scope, s⟩ ++ traceForms loader fuel scope rest t := by
  simp only [traceForms, sequenceCalls, andThen_ok evaluated, List.flatMap_append, one,
    List.flatMap_singleton]

theorem traceForms_singleton (fuel : Nat) (e : Expr) :
    traceForms loader fuel scope [e] s = trace loader fuel ⟨e, scope, s⟩ := by
  have only : sequenceCalls (eval loader fuel) scope [e] s = [⟨e, scope, s⟩] := by
    simp only [sequenceCalls, Calls.andThen]
    split <;> rfl
  rw [traceForms, only, List.flatMap_singleton]

theorem traceForms_append {fuel : Nat} {es : List Expr} {last v : Value}
    (evaluated : evalBody (eval loader fuel) scope last es s = .ok v t) (fs : List Expr) :
    traceForms loader fuel scope (es ++ fs) s =
      traceForms loader fuel scope es s ++ traceForms loader fuel scope fs t := by
  rw [traceForms, sequenceCalls_append evaluated, List.flatMap_append]
  rfl

end Runs

/-- An action over an evaluator makes these calls: it gives the same over evaluators that answer
them alike, it lacks fuel if one of them does, and it gives a value only if all of them do. -/
structure Makes (x : Evaluator → Action α) (calls : Evaluator → Calls) : Prop where
  congr : ∀ ev ev' s, (∀ c ∈ calls ev s, c.answer ev' = c.answer ev) → x ev' s = x ev s
  lacks : ∀ ev s, ∀ c ∈ calls ev s, c.answer ev = .outOfFuel → x ev s = .outOfFuel
  passes : ∀ ev s a t, x ev s = .ok a t → ∀ c ∈ calls ev s, ∃ v u, c.answer ev = .ok v u

theorem makes_none (x : Action α) : Makes (fun _ => x) fun _ => none where
  congr := fun _ _ _ _ => rfl
  lacks := fun _ _ _ member => absurd member List.not_mem_nil
  passes := fun _ _ _ _ _ _ member => absurd member List.not_mem_nil

theorem makes_one (e : Expr) (scope : FrameId) :
    Makes (fun ev => ev e scope) fun _ => one e scope where
  congr := fun _ _ s agree => agree ⟨e, scope, s⟩ List.mem_cons_self
  lacks := by
    intro ev s c member lacking
    rwa [List.mem_singleton.mp member] at lacking
  passes := by
    intro ev s v t done c member
    rw [List.mem_singleton.mp member]
    exact ⟨v, t, done⟩

variable {x : Evaluator → Action α} {calls : Evaluator → Calls}

theorem Makes.bind (makes : Makes x calls) {f : α → Evaluator → Action β}
    {later : α → Evaluator → Calls} (makesLater : ∀ a, Makes (f a) (later a)) :
    Makes (fun ev => x ev >>= fun a => f a ev)
      fun ev => (calls ev).andThen (x ev) fun a => later a ev where
  congr := by
    intro ev ev' s agree
    dsimp only [Calls.andThen] at agree
    cases hx : x ev s with
    | ok a t =>
      rw [hx] at agree
      have same := makes.congr ev ev' s fun c member => agree c (List.mem_append_left _ member)
      rw [Action.bind_ok hx, Action.bind_ok (same.trans hx)]
      exact (makesLater a).congr ev ev' t fun c member => agree c (List.mem_append_right _ member)
    | error e t =>
      rw [hx] at agree
      rw [Action.bind_error hx, Action.bind_error ((makes.congr ev ev' s agree).trans hx)]
    | outOfFuel =>
      rw [hx] at agree
      rw [Action.bind_outOfFuel hx, Action.bind_outOfFuel ((makes.congr ev ev' s agree).trans hx)]
  lacks := by
    intro ev s c member lacking
    dsimp only [Calls.andThen] at member
    cases hx : x ev s with
    | ok a t =>
      rw [hx] at member
      rcases List.mem_append.mp member with first | second
      · cases hx.symm.trans (makes.lacks ev s c first lacking)
      · rw [Action.bind_ok hx]
        exact (makesLater a).lacks ev t c second lacking
    | error e t =>
      rw [hx] at member
      cases hx.symm.trans (makes.lacks ev s c member lacking)
    | outOfFuel => exact Action.bind_outOfFuel hx
  passes := by
    intro ev s b u done c member
    obtain ⟨a, t, hx, later⟩ := Action.bind_eq_ok done
    rw [Calls.andThen_ok hx] at member
    rcases List.mem_append.mp member with first | second
    · exact makes.passes ev s a t hx c first
    · exact (makesLater a).passes ev t b u later c second

theorem Makes.before (makes : Makes x calls) (f : α → Action β) :
    Makes (fun ev => x ev >>= f) calls where
  congr := by
    intro ev ev' s agree
    have same := makes.congr ev ev' s agree
    cases hx : x ev s with
    | ok a t => rw [Action.bind_ok hx, Action.bind_ok (same.trans hx)]
    | error e t => rw [Action.bind_error hx, Action.bind_error (same.trans hx)]
    | outOfFuel => rw [Action.bind_outOfFuel hx, Action.bind_outOfFuel (same.trans hx)]
  lacks := fun ev s c member lacking => Action.bind_outOfFuel (makes.lacks ev s c member lacking)
  passes := by
    intro ev s b u done
    obtain ⟨a, t, hx, _⟩ := Action.bind_eq_ok done
    exact makes.passes ev s a t hx

theorem makes_after (y : Action β) {f : β → Evaluator → Action α} {later : β → Evaluator → Calls}
    (makesLater : ∀ b, Makes (f b) (later b)) :
    Makes (fun ev => y >>= fun b => f b ev) fun ev => after y fun b => later b ev :=
  (makes_none y).bind makesLater

theorem Makes.ensuring (makes : Makes x calls) (leave : Action β) :
    Makes (fun ev => Action.ensuring (x ev) leave) calls where
  congr := by
    intro ev ev' s agree
    simp only [Action.ensuring, makes.congr ev ev' s agree]
  lacks := by
    intro ev s c member lacking
    simp only [Action.ensuring, makes.lacks ev s c member lacking]
  passes := by
    intro ev s r u done
    cases hx : x ev s with
    | ok a t => exact makes.passes ev s a t hx
    | error e t =>
      -- Leaving has no value of its own to give in place of the error.
      simp only [Action.ensuring, hx] at done
      obtain ⟨_, _, _, thrown⟩ := Action.bind_eq_ok done
      cases thrown
    | outOfFuel => simp [Action.ensuring, hx] at done

section Forms

variable (scope : FrameId)

theorem evalAll_makes (es : List Expr) :
    Makes (fun ev => evalAll ev scope es) fun ev => sequenceCalls ev scope es := by
  induction es with
  | nil => exact makes_none _
  | cons e rest ih => exact (makes_one e scope).bind fun v => ih.before _

theorem evalBody_makes (last : Value) (es : List Expr) :
    Makes (fun ev => evalBody ev scope last es) fun ev => sequenceCalls ev scope es := by
  induction es generalizing last with
  | nil => exact makes_none _
  | cons e rest ih => exact (makes_one e scope).bind ih

theorem evalUntil_makes (stops : Value → Bool) (last : Value) (es : List Expr) :
    Makes (fun ev => evalUntil ev stops scope last es) fun ev => untilCalls ev stops scope es := by
  induction es generalizing last with
  | nil => exact makes_none _
  | cons e rest ih =>
    refine (makes_one e scope).bind fun v => ?_
    cases stops v with
    | true => exact makes_none _
    | false => exact ih v

theorem apply_makes (f : Value) (args : List Value) :
    Makes (fun ev => apply ev f args) fun ev => applyCalls ev f args := by
  cases f with
  | closure stamp c => exact makes_after _ fun inner => evalBody_makes inner .nil c.body
  | _ => exact makes_none _

theorem evalCall_makes (head : Expr) (arguments : List Expr) :
    Makes (fun ev => evalCall ev head arguments scope)
      fun ev => applicationCalls ev head arguments scope :=
  (makes_one head scope).bind fun f =>
    (evalAll_makes scope arguments).bind fun args => apply_makes f args

theorem evalDefine_makes : ∀ arguments,
    Makes (fun ev => evalDefine ev scope arguments) fun _ => assignmentCalls scope arguments
  | [target, e] => by
    simp only [evalDefine, assignmentCalls]
    cases target.symbolName? with
    | some name => exact (makes_one e scope).before _
    | none => exact makes_none _
  | [] | [_] | _ :: _ :: _ :: _ => makes_none _

theorem evalSet_makes : ∀ arguments,
    Makes (fun ev => evalSet ev scope arguments) fun _ => assignmentCalls scope arguments
  | [target, e] => by
    simp only [evalSet, assignmentCalls]
    cases target.symbolName? with
    | some name => exact (makes_one e scope).before _
    | none => exact makes_none _
  | [] | [_] | _ :: _ :: _ :: _ => makes_none _

theorem evalBindings_makes (bindings : List Expr) :
    Makes (fun ev => evalBindings ev scope bindings) fun ev => bindingCalls ev scope bindings := by
  induction bindings with
  | nil => exact makes_none _
  | cons binding rest ih =>
    exact makes_after _ fun entry => (makes_one entry.2 scope).bind fun _ => ih.before _

theorem evalLet_makes : ∀ arguments,
    Makes (fun ev => evalLet ev scope arguments) fun ev => letCalls ev scope arguments
  | [] => makes_none _
  | header :: body => by
    simp only [evalLet, letCalls]
    cases header.elements? with
    | none => exact makes_none _
    | some bindings =>
      refine (evalBindings_makes scope bindings).bind fun bound => ?_
      refine makes_after _ fun inner => makes_after _ fun _ => ?_
      exact evalBody_makes inner .nil body

theorem evalConditional_makes : ∀ arguments,
    Makes (fun ev => evalConditional ev scope arguments)
      fun ev => conditionalCalls ev scope arguments
  | [condition, consequent] => by
    refine (makes_one condition scope).bind fun v => ?_
    cases v.isTruthy with
    | true => exact makes_one consequent scope
    | false => exact makes_none _
  | [condition, consequent, alternative] => by
    refine (makes_one condition scope).bind fun v => ?_
    cases v.isTruthy with
    | true => exact makes_one consequent scope
    | false => exact makes_one alternative scope
  | [] | [_] | _ :: _ :: _ :: _ :: _ => makes_none _

theorem evalOnlyList_makes (form : String) : ∀ arguments,
    Makes (fun ev => evalOnlyList ev form scope arguments) fun _ => onlyListCalls scope arguments
  | [e] => (makes_one e scope).before _
  | [] | _ :: _ :: _ => makes_none _

theorem evalCons_makes : ∀ arguments,
    Makes (fun ev => evalCons ev scope arguments) fun ev => consCalls ev scope arguments
  | [head, tail] => (makes_one head scope).bind fun _ => (makes_one tail scope).bind fun _ =>
    makes_none _
  | [] | [_] | _ :: _ :: _ :: _ => makes_none _

theorem evalForm_makes (form : SpecialForm) (arguments : List Expr) :
    Makes (fun ev => evalForm ev form arguments scope)
      fun ev => formCalls ev form arguments scope := by
  cases form with
  | quote | lambda => exact makes_none _
  | define => exact evalDefine_makes scope arguments
  | set => exact evalSet_makes scope arguments
  | conditional => exact evalConditional_makes scope arguments
  | bindLocally => exact evalLet_makes scope arguments
  | sequence => exact evalBody_makes scope .nil arguments
  | conjunction | disjunction => exact evalUntil_makes scope _ _ arguments
  | list => exact (evalAll_makes scope arguments).before _
  | isEmpty | length | first | rest => exact (evalOnlyList_makes scope _ arguments).before _
  | cons => exact evalCons_makes scope arguments

theorem evalModule_makes (name : String) (exports : List String) (body : List Expr) :
    Makes (fun ev => evalModule ev name exports body scope)
      fun ev => moduleCalls ev body scope :=
  makes_after _ fun inner => (evalBody_makes inner .nil body).before _

theorem evalRequired_makes (l : Loader) (filename : String) :
    Makes (fun ev => evalRequired ev l filename scope)
      fun ev => requiredCalls ev l filename scope :=
  makes_after _ fun forms => makes_after _ fun _ => makes_after _ fun inner =>
    evalBody_makes inner .nil forms

theorem requiredModules_makes (loader : Option Loader) (filename : String) :
    Makes (fun ev => requiredModules loader ev filename scope)
      fun ev => requireCalls loader ev filename scope := by
  refine makes_after _ fun l => makes_after _ fun key => makes_after _ fun cached => ?_
  cases cached with
  | some ms => exact makes_none _
  | none =>
    refine Makes.before
      (x := fun ev => Action.whileRequiring key (evalRequired ev l filename scope)) ?_ _
    exact makes_after _ fun _ => (evalRequired_makes scope l filename).ensuring _

theorem evalLoad_makes (loader : Option Loader) (filename : String) :
    Makes (fun ev => evalLoad loader ev filename scope)
      fun ev => loadCalls loader ev filename scope := by
  refine makes_after _ fun l => makes_after _ fun key => makes_after _ fun _ => ?_
  refine Makes.before (Makes.ensuring ?_ _) _
  exact makes_after _ fun forms => evalBody_makes scope .nil forms

end Forms

/-- The result of a step depends on the answers to its calls only, and on every one of them. -/
theorem step_makes (loader : Option Loader) (e : Expr) (scope : FrameId) :
    Makes (fun ev => step loader ev e scope) fun ev => stepCalls loader ev e scope := by
  match e with
  | .bracket elements => exact (evalAll_makes scope elements).before _
  | .list (head :: arguments) =>
    simp only [step, stepCalls]
    cases head.symbolName?.bind SpecialForm.ofName? with
    | some form => exact evalForm_makes scope form arguments
    | none => exact evalCall_makes scope head arguments
  | .moduleDecl name exports body => exact evalModule_makes scope name exports body
  | .requireDecl filename visibility => exact (requiredModules_makes scope loader filename).before _
  | .loadDecl filename => exact evalLoad_makes scope loader filename
  | .number _ | .bigNumber _ | .string _ | .boolean _ | .symbol _ | .keyword _ | .list []
  | .importDecl _ => exact makes_none _

end Evaluation

/-- All evaluations in the evaluation of a source text. -/
def Session.trace (loader : Option Loader) (fuel : Nat) (s : Session) (index : Nat)
    (source : String) : List Call :=
  match s.interpreters[index]?, Expr.readAll source with
  | some i, .ok forms => Evaluation.traceForms loader fuel i.root forms (s.stateOf i)
  | _, _ => []

theorem Session.trace_eq {s : Session} {index : Nat} {i : Interpreter} {source : String}
    {forms : List Expr} (found : s.interpreters[index]? = some i)
    (read : Expr.readAll source = .ok forms) (loader : Option Loader) (fuel : Nat) :
    s.trace loader fuel index source =
      Evaluation.traceForms loader fuel i.root forms (s.stateOf i) := by
  simp only [trace, found, read]

end ModularLisp
