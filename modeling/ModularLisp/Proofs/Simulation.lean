import ModularLisp.Proofs.Counterparts

/-!
# Evaluation in paired scopes

One expression, evaluated in two paired scopes of two alike states, comes out alike. One lemma for
each form shows this over any evaluator that does so for the parts; induction on the fuel gives it
for evaluation itself.
-/

namespace ModularLisp

open List

/-- In paired scopes the evaluator comes out alike. -/
def Evaluator.Alike (c : Comparison) (ev : Evaluator) : Prop :=
  ∀ (p : Pairing) (e : Expr) (i j : FrameId), p.frames i j →
    (ev e i).Alike c p Value.Alike (ev e j)

namespace Evaluation

open ModularLisp.Action

variable {α : Type} {c : Comparison} {p : Pairing} {loader : Option Loader} {ev : Evaluator}
  {i j : FrameId}

theorem fail_alike {gives : Pairing → α → α → Prop} (e : EvalError) :
    (fail e : Action α).Alike c p gives (fail e) := alike_throw _

theorem lift_alike {β : Type} {gives : Pairing → α → β → Prop} {r : Except EvalError α}
    {r' : Except EvalError β} (alike : ExceptAlike (gives p) r r') :
    (lift r).Alike c p gives (lift r') := by
  cases alike with
  | ok values => exact alike_pure values
  | error e => exact alike_throw _

theorem lift_same (r : Except EvalError α) : (lift r).Alike c p Same (lift r) := by
  cases r with
  | ok a => exact alike_pure rfl
  | error e => exact alike_throw _

theorem guarded_same (r : Except Fault α) : (guarded r).Alike c p Same (guarded r) := by
  cases r with
  | ok a => exact alike_pure rfl
  | error f => exact alike_throw _

theorem fromLoader_alike (filename : String) (r : Except LoadFailure α) :
    (fromLoader filename r).Alike c p Same (fromLoader filename r) := by
  cases r with
  | ok a => exact alike_pure rfl
  | error failure => exact alike_throw _

theorem theLoader_alike (loader : Option Loader) (filename : String) :
    (theLoader loader filename).Alike c p Same (theLoader loader filename) := by
  cases loader with
  | some l => exact alike_pure rfl
  | none => exact alike_throw _

theorem expectList_alike (form position : String) {v w : Value} (values : v.Alike p w) :
    (expectList form position v).Alike c p (fun q => Forall₂ (Value.Alike q))
      (expectList form position w) := by
  rw [expectList, expectList, values.kind_eq]
  obtain ⟨xs, ys, elements, elements', each⟩ | ⟨other, other'⟩ := rel_cases values.list?
  · rw [elements, elements']
    exact alike_pure each
  · rw [other, other']
    exact fail_alike _

theorem evalQuote_alike (arguments : List Expr) :
    (evalQuote arguments).Alike c p Value.Alike (evalQuote arguments) := by
  match arguments with
  | [e] =>
    simp only [evalQuote]
    cases denoted : e.datum with
    | ok v => exact alike_pure (e.datum_alike denoted)
    | error f => exact alike_throw _
  | [] | _ :: _ :: _ => exact fail_alike _

section Forms

variable (parts : ev.Alike c) (paired : p.frames i j)

include parts paired

theorem evalAll_alike (es : List Expr) :
    (evalAll ev i es).Alike c p (fun q => Forall₂ (Value.Alike q)) (evalAll ev j es) := by
  induction es generalizing p with
  | nil => exact alike_pure .nil
  | cons e rest ih =>
    refine (parts p e i j paired).bind fun q le v w value => ?_
    refine (ih (le.frames paired)).bind fun r later vs ws values => ?_
    exact alike_pure (.cons (value.mono later) values)

theorem evalBody_alike {last last' : Value} (value : last.Alike p last') (es : List Expr) :
    (evalBody ev i last es).Alike c p Value.Alike (evalBody ev j last' es) := by
  induction es generalizing p last last' with
  | nil => exact alike_pure value
  | cons e rest ih =>
    exact (parts p e i j paired).bind fun q le v w value => ih (le.frames paired) value

theorem evalUntil_alike {stops : Value → Bool}
    (same : ∀ {q v w}, Value.Alike q v w → stops v = stops w) {last last' : Value}
    (value : last.Alike p last') (es : List Expr) :
    (evalUntil ev stops i last es).Alike c p Value.Alike (evalUntil ev stops j last' es) := by
  induction es generalizing p last last' with
  | nil => exact alike_pure value
  | cons e rest ih =>
    refine (parts p e i j paired).bind fun q le v w value => ?_
    rw [same value]
    split
    · exact alike_pure value
    · exact ih (le.frames paired) value

theorem evalDefine_alike (arguments : List Expr) :
    (evalDefine ev i arguments).Alike c p Value.Alike (evalDefine ev j arguments) := by
  match arguments with
  | [target, e] =>
    simp only [evalDefine]
    cases target.symbolName? with
    | none => exact fail_alike _
    | some name =>
      refine (parts p e i j paired).bind fun q le v w value => ?_
      exact (define_alike (le.frames paired) name value).bind fun _ _ _ _ _ => alike_pure .nil
  | [] | [_] | _ :: _ :: _ :: _ => exact fail_alike _

theorem evalSet_alike (arguments : List Expr) :
    (evalSet ev i arguments).Alike c p Value.Alike (evalSet ev j arguments) := by
  match arguments with
  | [target, e] =>
    simp only [evalSet]
    cases target.symbolName? with
    | none => exact fail_alike _
    | some name =>
      refine (parts p e i j paired).bind fun q le v w value => ?_
      refine (set_alike (le.frames paired) name value).bind fun r later _ _ _ => ?_
      exact alike_pure (value.mono later)
  | [] | [_] | _ :: _ :: _ :: _ => exact fail_alike _

theorem evalConditional_alike (arguments : List Expr) :
    (evalConditional ev i arguments).Alike c p Value.Alike (evalConditional ev j arguments) := by
  match arguments with
  | [condition, consequent] =>
    refine (parts p condition i j paired).bind fun q le v w value => ?_
    rw [value.isTruthy_eq]
    split
    · exact parts q consequent i j (le.frames paired)
    · exact alike_pure .nil
  | [condition, consequent, alternative] =>
    refine (parts p condition i j paired).bind fun q le v w value => ?_
    rw [value.isTruthy_eq]
    split
    · exact parts q consequent i j (le.frames paired)
    · exact parts q alternative i j (le.frames paired)
  | [] | [_] | _ :: _ :: _ :: _ :: _ => exact fail_alike _

theorem evalBindings_alike (bindings : List Expr) :
    (evalBindings ev i bindings).Alike c p (fun q => Bindings.EntriesAlike (Value.Alike q))
      (evalBindings ev j bindings) := by
  induction bindings generalizing p with
  | nil => exact alike_pure .nil
  | cons binding rest ih =>
    refine (lift_same (bindingOf binding)).bind fun q le entry _ same => ?_
    cases same
    refine (parts q entry.2 i j (le.frames paired)).bind fun r later v w value => ?_
    refine (ih ((le.trans later).frames paired)).bind fun u last vs ws values => ?_
    exact alike_pure (.cons ⟨rfl, value.mono last⟩ values)

theorem evalLet_alike (arguments : List Expr) :
    (evalLet ev i arguments).Alike c p Value.Alike (evalLet ev j arguments) := by
  match arguments with
  | [] => exact fail_alike _
  | header :: body =>
    simp only [evalLet]
    cases header.elements? with
    | none => exact fail_alike _
    | some bindings =>
      refine (evalBindings_alike parts paired bindings).bind fun q le bound bound' entries => ?_
      refine (openScope_alike (le.frames paired)).bind fun r later inner inner' scopes => ?_
      have entries := entries.mono fun value => value.mono later
      refine (defineAll_alike scopes.1 entries).bind fun u last _ _ _ => ?_
      exact evalBody_alike parts (last.frames scopes.1) .nil body

theorem evalOnlyList_alike (form : String) (arguments : List Expr) :
    (evalOnlyList ev form i arguments).Alike c p (fun q => Forall₂ (Value.Alike q))
      (evalOnlyList ev form j arguments) := by
  match arguments with
  | [e] =>
    exact (parts p e i j paired).bind fun q le v w value => expectList_alike form _ value
  | [] | _ :: _ :: _ => exact fail_alike _

theorem evalCons_alike (arguments : List Expr) :
    (evalCons ev i arguments).Alike c p Value.Alike (evalCons ev j arguments) := by
  match arguments with
  | [head, tail] =>
    refine (parts p head i j paired).bind fun q le v w value => ?_
    refine (parts q tail i j (le.frames paired)).bind fun r later v' w' value' => ?_
    refine (expectList_alike "cons" _ value').bind fun u last xs ys each => ?_
    exact alike_pure (Value.alike_list_iff.mpr (.cons (value.mono (later.trans last)) each))
  | [] | [_] | _ :: _ :: _ :: _ => exact fail_alike _

omit parts in
theorem evalLambda_alike (arguments : List Expr) :
    (evalLambda i arguments).Alike c p Value.Alike (evalLambda j arguments) := by
  match arguments with
  | [] => exact fail_alike _
  | header :: body =>
    simp only [evalLambda]
    cases header.elements? with
    | none => exact fail_alike _
    | some es =>
      refine (lift_same (parameters [] es)).bind fun q le formals _ same => ?_
      cases same
      refine stamp_alike.bind fun r later a b stamps => ?_
      exact alike_pure (.closure formals body none stamps ((le.trans later).frames paired))

theorem evalForm_alike (form : SpecialForm) (arguments : List Expr) :
    (evalForm ev form arguments i).Alike c p Value.Alike (evalForm ev form arguments j) := by
  cases form with
  | quote => exact evalQuote_alike arguments
  | define => exact evalDefine_alike parts paired arguments
  | set => exact evalSet_alike parts paired arguments
  | lambda => exact evalLambda_alike paired arguments
  | conditional => exact evalConditional_alike parts paired arguments
  | bindLocally => exact evalLet_alike parts paired arguments
  | sequence => exact evalBody_alike parts paired .nil arguments
  | conjunction =>
    exact evalUntil_alike parts paired (fun value => by rw [value.isTruthy_eq]) (.boolean true)
      arguments
  | disjunction =>
    exact evalUntil_alike parts paired (fun value => by rw [value.isTruthy_eq]) (.boolean false)
      arguments
  | list =>
    refine (evalAll_alike parts paired arguments).bind fun q le vs ws each => ?_
    exact alike_pure (Value.alike_list_iff.mpr each)
  | isEmpty =>
    refine (evalOnlyList_alike parts paired _ arguments).bind fun q le vs ws each => ?_
    cases each with
    | nil => exact alike_pure (.boolean true)
    | cons => exact alike_pure (.boolean false)
  | length =>
    refine (evalOnlyList_alike parts paired _ arguments).bind fun q le vs ws each => ?_
    rw [each.length_eq]
    exact alike_pure (.number _)
  | first =>
    refine (evalOnlyList_alike parts paired _ arguments).bind fun q le vs ws each => ?_
    cases each with
    | nil => exact fail_alike _
    | cons value _ => exact alike_pure value
  | rest =>
    refine (evalOnlyList_alike parts paired _ arguments).bind fun q le vs ws each => ?_
    cases each with
    | nil => exact fail_alike _
    | cons _ values => exact alike_pure (Value.alike_list_iff.mpr values)
  | cons => exact evalCons_alike parts paired arguments

omit paired in
theorem apply_alike {f g : Value} (functions : f.Alike p g) {args args' : List Value}
    (values : Forall₂ (Value.Alike p) args args') :
    (apply ev f args).Alike c p Value.Alike (apply ev g args') := by
  have kind := functions.kind_eq
  have display := functions.display_eq
  cases functions with
  | closure formals body name _ scopes =>
    refine (enter_alike scopes formals body name values).bind fun q le inner inner' scopes => ?_
    exact evalBody_alike parts scopes.1 .nil body
  | @builtin a b f owners =>
    have scalar := f.run_scalar args
    simp only [apply, f.run_eq values] at scalar ⊢
    cases ran : f.run args' with
    | ok v =>
      rw [ran] at scalar
      exact alike_pure (Value.alike_of_scalar scalar)
    | error e => exact alike_throw e
  | _ =>
    simp only [apply, kind, display]
    exact fail_alike _

theorem evalCall_alike (head : Expr) (arguments : List Expr) :
    (evalCall ev head arguments i).Alike c p Value.Alike (evalCall ev head arguments j) := by
  refine (parts p head i j paired).bind fun q le f g functions => ?_
  refine (evalAll_alike parts (le.frames paired) arguments).bind fun r later vs ws values => ?_
  exact apply_alike parts (functions.mono later) values

omit parts paired in
theorem makeNameSpace_alike (name : String) {bs cs : Bindings Value}
    (members : bs.Alike (Value.Alike p) cs) :
    (makeNameSpace name bs).Alike c p Value.Alike (makeNameSpace name cs) := by
  refine stamp_alike.bind fun q le a b stamps => ?_
  exact alike_pure (Value.alike_nameSpace stamps name (members.mono fun value => value.mono le))

/-- The two modules are paired because their scopes are, which both runs have opened. -/
theorem evalModule_alike (name : String) (exports : List String) (body : List Expr) :
    (evalModule ev name exports body i).Alike c p Value.Alike
      (evalModule ev name exports body j) := by
  refine (openScope_alike paired).bind fun q le inner inner' scopes => ?_
  refine (evalBody_alike parts scopes.1 .nil body).bind fun r evaluated _ _ _ => ?_
  have scope := evaluated.frames scopes.1
  refine (undefinedIn_alike scope exports).bind fun u known missing _ same => ?_
  cases same
  split
  · have modules : Module.Alike u.frames ⟨name, inner, exports⟩ ⟨name, inner', exports⟩ :=
      ⟨rfl, rfl, known.frames scope⟩
    refine (declare_alike modules scopes.2).bind fun v declared _ _ paired' => ?_
    refine (exported_alike (.cons paired' .nil)).bind fun w found bs cs members => ?_
    refine (makeNameSpace_alike name members).bind fun x made space space' values => ?_
    have outer := (((((le.trans evaluated).trans known).trans declared).trans found).trans
      made).frames paired
    exact (define_alike outer name values).bind fun _ _ _ _ _ => alike_pure .nil
  · exact fail_alike _

omit parts in
theorem evalImport_alike (name : String) :
    (evalImport name i).Alike c p Value.Alike (evalImport name j) := by
  refine (registered?_alike name).bind fun q le m n modules => ?_
  cases modules with
  | none => exact fail_alike _
  | some modules =>
    refine (exported_alike (.cons modules .nil)).bind fun r found bs cs members => ?_
    refine (defineAll_alike ((le.trans found).frames paired) members).bind fun _ _ _ _ _ => ?_
    exact alike_pure .nil

omit parts paired in
theorem choose_alike (filename : String) {bs cs : Bindings Value}
    (exports : bs.Alike (Value.Alike p) cs) (names : List String) :
    ExceptAlike (Bindings.Alike (Value.Alike p)) (choose filename bs names)
      (choose filename cs names) := by
  refine foldlM_alike (forall₂_same.mpr fun name _ => rfl) ?_ Bindings.alike_empty
  rintro name _ b b' rfl bound
  obtain ⟨v, w, found, found', values⟩ | ⟨missing, missing'⟩ := rel_cases (exports.find? name)
  · rw [found, found']
    exact .ok (bound.insert name values)
  · rw [missing, missing']
    exact .error _

omit parts in
theorem makeVisible_alike (filename : String) (visibility : Visibility) {bs cs : Bindings Value}
    (exports : bs.Alike (Value.Alike p) cs) :
    (makeVisible filename visibility bs i).Alike c p Same
      (makeVisible filename visibility cs j) := by
  cases visibility with
  | all => exact defineAll_alike paired exports
  | qualified qualifier =>
    refine (makeNameSpace_alike qualifier exports).bind fun q le v w values => ?_
    exact define_alike (le.frames paired) qualifier values
  | only names =>
    have chosen : (lift (choose filename bs names)).Alike c p
        (fun q => Bindings.Alike (Value.Alike q)) (lift (choose filename cs names)) :=
      lift_alike (choose_alike filename exports names)
    exact chosen.bind fun q le bs' cs' members => defineAll_alike (le.frames paired) members

theorem evalRequired_alike (l : Loader) (filename : String) :
    (evalRequired ev l filename i).Alike c p Value.Alike (evalRequired ev l filename j) := by
  refine (fromLoader_alike filename (l.forms filename)).bind fun q le forms _ same => ?_
  cases same
  refine (rootOf_alike (le.frames paired)).bind fun r found root root' roots => ?_
  refine (openScope_alike roots).bind fun u opened inner inner' scopes => ?_
  exact evalBody_alike parts scopes.1 .nil forms

variable (within : ∀ e scope, (ev e scope).Within scope)

include within

theorem requiredModules_alike (filename : String) :
    (requiredModules loader ev filename i).Alike c p (fun q => Forall₂ q.modules)
      (requiredModules loader ev filename j) := by
  refine (theLoader_alike loader filename).bind fun q le l _ same => ?_
  cases same
  refine (fromLoader_alike filename (l.canonicalName filename)).bind fun r named key _ same => ?_
  cases same
  refine (cached?_alike key).bind fun u looked found found' cached => ?_
  cases cached with
  | some modules => exact alike_pure modules
  | none =>
    have scopes := ((le.trans named).trans looked).frames paired
    refine (whileRequiring_alike key (evalRequired_alike parts scopes l filename)
      (evalRequired_within within l filename i i) (evalRequired_within within l filename j j)).bind
      fun v required ⟨_, ms⟩ ⟨_, ns⟩ results => ?_
    obtain ⟨-, modules⟩ := results
    cases modules with
    | nil => exact fail_alike _
    | cons first rest =>
      refine (cacheFile_alike key (.cons first rest)).bind fun w stored _ _ _ => ?_
      exact alike_pure ((Forall₂.cons first rest).imp fun _ _ => stored.modules)

theorem evalRequire_alike (filename : String) (visibility : Visibility) :
    (evalRequire loader ev filename visibility i).Alike c p Value.Alike
      (evalRequire loader ev filename visibility j) := by
  refine (requiredModules_alike parts paired within filename).bind fun q le ms ns modules => ?_
  refine (exported_alike modules).bind fun r found bs cs exports => ?_
  refine (makeVisible_alike ((le.trans found).frames paired) filename visibility exports).bind
    fun _ _ _ _ _ => ?_
  exact alike_pure .nil

theorem evalLoad_alike (filename : String) :
    (evalLoad loader ev filename i).Alike c p Value.Alike (evalLoad loader ev filename j) := by
  refine (theLoader_alike loader filename).bind fun q le l _ same => ?_
  cases same
  refine (fromLoader_alike filename (l.canonicalName filename)).bind fun r named key _ same => ?_
  cases same
  have scopes := (le.trans named).frames paired
  refine whileLoading_alike key ?_ (loaded_within within l filename i)
    (loaded_within within l filename j)
  refine (fromLoader_alike filename (l.forms filename)).bind fun u read forms _ same => ?_
  cases same
  exact evalBody_alike parts (read.frames scopes) .nil forms

theorem step_alike (e : Expr) :
    (step loader ev e i).Alike c p Value.Alike (step loader ev e j) := by
  unfold step
  cases e with
  | number x => exact alike_pure (.number x)
  | bigNumber text =>
    refine (guarded_same (integerOf text)).bind fun _ _ n _ same => ?_
    cases same
    exact alike_pure (.bigNumber n)
  | string text => exact alike_pure (.string text)
  | boolean b => exact alike_pure (.boolean b)
  | keyword name => exact alike_pure (.keyword name)
  | symbol name => exact lookup_alike paired name
  | bracket elements =>
    refine (evalAll_alike parts paired elements).bind fun q le vs ws each => ?_
    exact alike_pure (Value.alike_list_iff.mpr each)
  | list elements =>
    cases elements with
    | nil => exact alike_pure (Value.alike_list_iff.mpr .nil)
    | cons head arguments =>
      dsimp only
      split
      · exact evalForm_alike parts paired _ arguments
      · exact evalCall_alike parts paired head arguments
  | moduleDecl name exports body => exact evalModule_alike parts paired name exports body
  | importDecl name => exact evalImport_alike paired name
  | requireDecl filename visibility =>
    exact evalRequire_alike parts paired within filename visibility
  | loadDecl filename => exact evalLoad_alike parts paired within filename

end Forms

/-- Evaluation comes out alike in paired scopes. -/
theorem eval_alike (c : Comparison) (loader : Option Loader) (fuel : Nat) :
    Evaluator.Alike c (eval loader fuel) := by
  induction fuel with
  | zero => exact fun p e i j _ s t _ => .outOfFuel
  | succ fuel ih =>
    intro p e i j paired
    exact step_alike ih paired (eval_within loader fuel) e

theorem evalForms_alike (c : Comparison) (loader : Option Loader) (fuel : Nat) {p : Pairing}
    {i j : FrameId} (paired : p.frames i j) (forms : List Expr) :
    (evalForms loader fuel i forms).Alike c p Value.Alike (evalForms loader fuel j forms) :=
  evalBody_alike (eval_alike c loader fuel) paired .nil forms

end Evaluation

end ModularLisp
