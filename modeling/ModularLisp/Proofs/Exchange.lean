import ModularLisp.Proofs.Renaming

/-!
# Evaluation over exchanged loaders

Two loaders may be exchanged for each other if under each file name that is asked for they serve the
same forms, or both do not find the file. One lemma for each form shows that evaluation comes out
alike over them, from any evaluators that do so for the parts; induction on the fuel gives it for
evaluation itself.
-/

namespace ModularLisp

/-- The two loaders serve the same forms, each under its own key, or find nothing. -/
inductive Loader.AgreeOn (r : Renaming) (l m : Loader) (filename : String) : Prop
  | found {key : String} (name : l.canonicalName filename = .ok key)
    (name' : m.canonicalName filename = .ok (r.key key))
    (forms : l.forms filename = m.forms filename)
    (asks : ∀ es, l.forms filename = .ok es → ∀ e ∈ es, e.AsksFor r.files)
  | missing {a b : LoadFailure} (name : l.canonicalName filename = .error a)
    (name' : m.canonicalName filename = .error b)
    (errors : (a.toError filename).Agrees (b.toError filename))

def Loader.Renamed (r : Renaming) (l m : Loader) : Prop := ∀ f, r.files f → Loader.AgreeOn r l m f

def Evaluator.Renamed (r : Renaming) (ev ev' : Evaluator) : Prop :=
  ∀ e, e.AsksFor r.files → ∀ scope,
    (ev e scope).Renamed r (Value.AsksFor r.files) (ev' e scope)

namespace Evaluation

open ModularLisp.Action

variable {α : Type} {r : Renaming} {good : α → Prop} {ev ev' : Evaluator} {l m : Loader}

theorem fail_renamed (e : EvalError) : (fail e : Action α).Renamed r good (fail e) :=
  renamed_throw (.refl _)

theorem lift_renamed {a : Except EvalError α} (fine : ∀ x, a = .ok x → good x) :
    (lift a).Renamed r good (lift a) := by
  cases a with
  | ok x => exact renamed_pure (fine x rfl)
  | error e => exact fail_renamed e

theorem guarded_renamed {a : Except Fault α} (fine : ∀ x, a = .ok x → good x) :
    (guarded a).Renamed r good (guarded a) := by
  cases a with
  | ok x => exact renamed_pure (fine x rfl)
  | error f => exact renamed_throw (.refl _)

theorem fromLoader_renamed (filename : String) {a : Except LoadFailure α}
    (fine : ∀ x, a = .ok x → good x) :
    (fromLoader filename a).Renamed r good (fromLoader filename a) := by
  cases a with
  | ok x => exact renamed_pure (fine x rfl)
  | error failure => exact renamed_throw (.refl _)

theorem expectList_renamed (form position : String) {v : Value} (value : v.AsksFor r.files) :
    (expectList form position v).Renamed r (fun vs => ∀ w ∈ vs, w.AsksFor r.files)
      (expectList form position v) := by
  rw [expectList]
  cases elements : v.list? with
  | some vs => exact renamed_pure (value.list? elements)
  | none => exact fail_renamed _

theorem evalQuote_renamed (arguments : List Expr) :
    (evalQuote arguments).Renamed r (Value.AsksFor r.files) (evalQuote arguments) := by
  match arguments with
  | [e] => exact guarded_renamed fun _ => Expr.datum_asksFor
  | [] | _ :: _ :: _ => exact fail_renamed _

section Forms

variable (parts : ev.Renamed r ev') (scope : FrameId)

include parts

theorem evalAll_renamed {es : List Expr} (asks : ∀ e ∈ es, e.AsksFor r.files) :
    (evalAll ev scope es).Renamed r (fun vs => ∀ v ∈ vs, v.AsksFor r.files)
      (evalAll ev' scope es) := by
  induction es with
  | nil => exact renamed_pure nofun
  | cons e rest ih =>
    obtain ⟨first, later⟩ := List.forall_mem_cons.mp asks
    refine (parts e first scope).bind fun v value => ?_
    refine (ih later).bind fun vs values => ?_
    exact renamed_pure (List.forall_mem_cons.mpr ⟨value, values⟩)

theorem evalBody_renamed {last : Value} (value : last.AsksFor r.files) {es : List Expr}
    (asks : ∀ e ∈ es, e.AsksFor r.files) :
    (evalBody ev scope last es).Renamed r (Value.AsksFor r.files) (evalBody ev' scope last es) := by
  induction es generalizing last with
  | nil => exact renamed_pure value
  | cons e rest ih =>
    obtain ⟨first, later⟩ := List.forall_mem_cons.mp asks
    exact (parts e first scope).bind fun v value => ih value later

theorem evalUntil_renamed (stops : Value → Bool) {last : Value} (value : last.AsksFor r.files)
    {es : List Expr} (asks : ∀ e ∈ es, e.AsksFor r.files) :
    (evalUntil ev stops scope last es).Renamed r (Value.AsksFor r.files)
      (evalUntil ev' stops scope last es) := by
  induction es generalizing last with
  | nil => exact renamed_pure value
  | cons e rest ih =>
    obtain ⟨first, later⟩ := List.forall_mem_cons.mp asks
    refine (parts e first scope).bind fun v value => ?_
    split
    · exact renamed_pure value
    · exact ih value later

theorem evalDefine_renamed {arguments : List Expr} (asks : ∀ e ∈ arguments, e.AsksFor r.files) :
    (evalDefine ev scope arguments).Renamed r (Value.AsksFor r.files)
      (evalDefine ev' scope arguments) := by
  match arguments with
  | [target, e] =>
    simp only [evalDefine]
    cases target.symbolName? with
    | none => exact fail_renamed _
    | some name =>
      refine (parts e (asks e (by simp)) scope).bind fun v value => ?_
      exact (define_renamed scope _ value).bind fun _ _ => renamed_pure .nil
  | [] | [_] | _ :: _ :: _ :: _ => exact fail_renamed _

theorem evalSet_renamed {arguments : List Expr} (asks : ∀ e ∈ arguments, e.AsksFor r.files) :
    (evalSet ev scope arguments).Renamed r (Value.AsksFor r.files)
      (evalSet ev' scope arguments) := by
  match arguments with
  | [target, e] =>
    simp only [evalSet]
    cases target.symbolName? with
    | none => exact fail_renamed _
    | some name =>
      refine (parts e (asks e (by simp)) scope).bind fun v value => ?_
      exact (set_renamed scope name value).bind fun _ _ => renamed_pure value
  | [] | [_] | _ :: _ :: _ :: _ => exact fail_renamed _

theorem evalConditional_renamed {arguments : List Expr}
    (asks : ∀ e ∈ arguments, e.AsksFor r.files) :
    (evalConditional ev scope arguments).Renamed r (Value.AsksFor r.files)
      (evalConditional ev' scope arguments) := by
  match arguments with
  | [condition, consequent] =>
    refine (parts condition (asks _ (by simp)) scope).bind fun v _ => ?_
    split
    · exact parts consequent (asks _ (by simp)) scope
    · exact renamed_pure .nil
  | [condition, consequent, alternative] =>
    refine (parts condition (asks _ (by simp)) scope).bind fun v _ => ?_
    split
    · exact parts consequent (asks _ (by simp)) scope
    · exact parts alternative (asks _ (by simp)) scope
  | [] | [_] | _ :: _ :: _ :: _ :: _ => exact fail_renamed _

omit parts in
/-- What a binding evaluates is a part of it. -/
theorem bindingOf_asks {binding : Expr} (asks : binding.AsksFor r.files) {entry : String × Expr}
    (found : bindingOf binding = .ok entry) : entry.2.AsksFor r.files := by
  rw [bindingOf] at found
  split at found
  · rename_i name e elements
    have known := asks.elements? elements e (by simp)
    split at found
    · cases found
      exact known
    · cases found
  · cases found

theorem evalBindings_renamed {bindings : List Expr} (asks : ∀ e ∈ bindings, e.AsksFor r.files) :
    (evalBindings ev scope bindings).Renamed r
      (fun bound => ∀ entry ∈ bound, entry.2.AsksFor r.files) (evalBindings ev' scope bindings) := by
  induction bindings with
  | nil => exact renamed_pure nofun
  | cons binding rest ih =>
    obtain ⟨first, later⟩ := List.forall_mem_cons.mp asks
    refine (lift_renamed fun _ => bindingOf_asks first).bind fun entry own => ?_
    refine (parts entry.2 own scope).bind fun v value => ?_
    refine (ih later).bind fun bound values => ?_
    exact renamed_pure (List.forall_mem_cons.mpr ⟨value, values⟩)

theorem evalLet_renamed {arguments : List Expr} (asks : ∀ e ∈ arguments, e.AsksFor r.files) :
    (evalLet ev scope arguments).Renamed r (Value.AsksFor r.files)
      (evalLet ev' scope arguments) := by
  match arguments with
  | [] => exact fail_renamed _
  | header :: body =>
    obtain ⟨first, later⟩ := List.forall_mem_cons.mp asks
    simp only [evalLet]
    cases elements : header.elements? with
    | none => exact fail_renamed _
    | some bindings =>
      have own := first.elements? elements
      refine (evalBindings_renamed parts scope own).bind fun bound values => ?_
      refine (openScope_renamed scope).bind fun inner _ => ?_
      refine (defineAll_renamed inner values).bind fun _ _ => ?_
      exact evalBody_renamed parts inner .nil later

theorem evalOnlyList_renamed (form : String) {arguments : List Expr}
    (asks : ∀ e ∈ arguments, e.AsksFor r.files) :
    (evalOnlyList ev form scope arguments).Renamed r (fun vs => ∀ v ∈ vs, v.AsksFor r.files)
      (evalOnlyList ev' form scope arguments) := by
  match arguments with
  | [e] =>
    exact (parts e (asks e (by simp)) scope).bind fun v value => expectList_renamed form _ value
  | [] | _ :: _ :: _ => exact fail_renamed _

theorem evalCons_renamed {arguments : List Expr} (asks : ∀ e ∈ arguments, e.AsksFor r.files) :
    (evalCons ev scope arguments).Renamed r (Value.AsksFor r.files)
      (evalCons ev' scope arguments) := by
  match arguments with
  | [head, tail] =>
    refine (parts head (asks _ (by simp)) scope).bind fun v value => ?_
    refine (parts tail (asks _ (by simp)) scope).bind fun w value' => ?_
    refine (expectList_renamed "cons" _ value').bind fun vs values => ?_
    exact renamed_pure (.list (List.forall_mem_cons.mpr ⟨value, values⟩))
  | [] | [_] | _ :: _ :: _ :: _ => exact fail_renamed _

omit parts in
theorem evalLambda_renamed {arguments : List Expr} (asks : ∀ e ∈ arguments, e.AsksFor r.files) :
    (evalLambda scope arguments).Renamed r (Value.AsksFor r.files)
      (evalLambda scope arguments) := by
  match arguments with
  | [] => exact fail_renamed _
  | header :: body =>
    simp only [evalLambda]
    cases header.elements? with
    | none => exact fail_renamed _
    | some es =>
      have header : (lift (parameters [] es)).Renamed r Any (lift (parameters [] es)) :=
        lift_renamed fun _ _ => trivial
      refine header.bind fun formals _ => ?_
      refine stamp_renamed.bind fun stamp _ => ?_
      exact renamed_pure (.closure stamp (List.forall_mem_cons.mp asks).2)

theorem evalForm_renamed (form : SpecialForm) {arguments : List Expr}
    (asks : ∀ e ∈ arguments, e.AsksFor r.files) :
    (evalForm ev form arguments scope).Renamed r (Value.AsksFor r.files)
      (evalForm ev' form arguments scope) := by
  have elements := fun form => evalOnlyList_renamed parts scope form asks
  cases form with
  | quote => exact evalQuote_renamed arguments
  | define => exact evalDefine_renamed parts scope asks
  | set => exact evalSet_renamed parts scope asks
  | lambda => exact evalLambda_renamed scope asks
  | conditional => exact evalConditional_renamed parts scope asks
  | bindLocally => exact evalLet_renamed parts scope asks
  | sequence => exact evalBody_renamed parts scope .nil asks
  | conjunction => exact evalUntil_renamed parts scope _ (.boolean true) asks
  | disjunction => exact evalUntil_renamed parts scope _ (.boolean false) asks
  | list =>
    exact (evalAll_renamed parts scope asks).bind fun vs values => renamed_pure (.list values)
  | isEmpty => exact (elements _).bind fun vs _ => renamed_pure (.boolean _)
  | length => exact (elements _).bind fun vs _ => renamed_pure (.number _)
  | first =>
    refine (elements _).bind fun vs values => ?_
    cases vs with
    | nil => exact fail_renamed _
    | cons v rest => exact renamed_pure (List.forall_mem_cons.mp values).1
  | rest =>
    refine (elements _).bind fun vs values => ?_
    cases vs with
    | nil => exact fail_renamed _
    | cons v rest => exact renamed_pure (.list (List.forall_mem_cons.mp values).2)
  | cons => exact evalCons_renamed parts scope asks

omit scope in
theorem apply_renamed {f : Value} (function : f.AsksFor r.files) {args : List Value}
    (values : ∀ v ∈ args, v.AsksFor r.files) :
    (apply ev f args).Renamed r (Value.AsksFor r.files) (apply ev' f args) := by
  cases function with
  | closure stamp body =>
    exact (enter_renamed _ values).bind fun inner _ => evalBody_renamed parts inner .nil body
  | builtin owner b =>
    have plain := b.run_inDomain args
    simp only [apply]
    cases ran : b.run args with
    | ok v =>
      rw [ran] at plain
      exact renamed_pure (Value.Plain.asksFor plain)
    | error e => exact renamed_throw (.refl e)
  | _ => exact fail_renamed _

theorem evalCall_renamed {head : Expr} {arguments : List Expr} (own : head.AsksFor r.files)
    (asks : ∀ e ∈ arguments, e.AsksFor r.files) :
    (evalCall ev head arguments scope).Renamed r (Value.AsksFor r.files)
      (evalCall ev' head arguments scope) := by
  refine (parts head own scope).bind fun f function => ?_
  refine (evalAll_renamed parts scope asks).bind fun args values => ?_
  exact apply_renamed parts function values

omit parts scope in
theorem makeNameSpace_renamed (name : String) {members : Bindings Value}
    (values : members.All (Value.AsksFor r.files)) :
    (makeNameSpace name members).Renamed r (Value.AsksFor r.files) (makeNameSpace name members) :=
  stamp_renamed.bind fun stamp _ => renamed_pure (.nameSpace stamp name values)

theorem evalModule_renamed (name : String) (exports : List String) {body : List Expr}
    (asks : ∀ e ∈ body, e.AsksFor r.files) :
    (evalModule ev name exports body scope).Renamed r (Value.AsksFor r.files)
      (evalModule ev' name exports body scope) := by
  refine (openScope_renamed scope).bind fun inner _ => ?_
  refine (evalBody_renamed parts inner .nil asks).bind fun _ _ => ?_
  refine (undefinedIn_renamed inner exports).bind fun missing _ => ?_
  split
  · refine (declare_renamed _).bind fun _ _ => ?_
    refine (exported_renamed _).bind fun members values => ?_
    refine (makeNameSpace_renamed name values).bind fun space value => ?_
    exact (define_renamed scope _ value).bind fun _ _ => renamed_pure .nil
  · exact fail_renamed _

omit parts in
theorem evalImport_renamed (name : String) :
    (evalImport name scope).Renamed r (Value.AsksFor r.files) (evalImport name scope) := by
  refine (registered?_renamed name).bind fun known _ => ?_
  cases known with
  | none => exact fail_renamed _
  | some m =>
    refine (exported_renamed [m]).bind fun members values => ?_
    exact (defineAll_renamed scope values).bind fun _ _ => renamed_pure .nil

omit parts scope in
theorem choose_all {filename : String} {exports chosen : Bindings Value} {names : List String}
    (values : exports.All (Value.AsksFor r.files))
    (chose : choose filename exports names = .ok chosen) : chosen.All (Value.AsksFor r.files) := by
  refine foldlM_keeps (P := Bindings.All (Value.AsksFor r.files)) ?_ Bindings.all_empty chose
  intro name _ b b' kept stepped
  split at stepped
  · rename_i v found
    cases stepped
    exact kept.insert name (values.find? found)
  · cases stepped

omit parts in
theorem makeVisible_renamed (filename : String) (visibility : Visibility)
    {exports : Bindings Value} (values : exports.All (Value.AsksFor r.files)) :
    (makeVisible filename visibility exports scope).Renamed r Any
      (makeVisible filename visibility exports scope) := by
  cases visibility with
  | all => exact defineAll_renamed scope values
  | qualified qualifier =>
    refine (makeNameSpace_renamed qualifier values).bind fun space value => ?_
    exact define_renamed scope _ value
  | only names =>
    refine (lift_renamed fun _ => choose_all values).bind fun chosen values => ?_
    exact defineAll_renamed scope values

variable (within : ∀ e scope, (ev e scope).Within scope)
  (within' : ∀ e scope, (ev' e scope).Within scope) (loaders : l.Renamed r m) {filename : String}
  (known : r.files filename)

theorem evalRequired_renamed (same : l.forms filename = m.forms filename)
    (asks : ∀ es, l.forms filename = .ok es → ∀ e ∈ es, e.AsksFor r.files) :
    (evalRequired ev l filename scope).Renamed r (Value.AsksFor r.files)
      (evalRequired ev' m filename scope) := by
  rw [evalRequired, evalRequired, ← same]
  refine (fromLoader_renamed filename asks).bind fun es own => ?_
  refine (rootOf_renamed scope).bind fun root _ => ?_
  refine (openScope_renamed root).bind fun inner _ => ?_
  exact evalBody_renamed parts inner .nil own

include within within' loaders known

/-- The keys of the cache and of what is in progress are the two names of the file. -/
theorem requiredModules_renamed :
    (requiredModules (some l) ev filename scope).Renamed r Any
      (requiredModules (some m) ev' filename scope) := by
  intro s t states
  cases loaders filename known with
  | @found key name name' forms asks =>
    -- The file is cached in both runs or in neither.
    rw [requiredModules_eq name, requiredModules_eq name', ← states.registry.files]
    cases s.registry.files.find? key with
    | some ms => exact .ok states trivial
    | none =>
      have inside := whileRequiring_renamed key (evalRequired_renamed parts scope forms asks)
        (evalRequired_within within l filename scope scope)
        (evalRequired_within within' m filename scope scope)
      refine (inside.bind fun result _ => ?_) s t states
      split
      · exact fail_renamed _
      · exact (cacheFile_renamed key _).bind fun _ _ => renamed_pure trivial
  | missing name name' errors =>
    rw [(requiredModules_unknown name).1, (requiredModules_unknown name').1]
    exact .error states errors

theorem evalRequire_renamed (visibility : Visibility) :
    (evalRequire (some l) ev filename visibility scope).Renamed r (Value.AsksFor r.files)
      (evalRequire (some m) ev' filename visibility scope) := by
  refine (requiredModules_renamed parts scope within within' loaders known).bind fun ms _ => ?_
  refine (exported_renamed ms).bind fun exports values => ?_
  exact (makeVisible_renamed scope filename visibility values).bind fun _ _ => renamed_pure .nil

theorem evalLoad_renamed :
    (evalLoad (some l) ev filename scope).Renamed r (Value.AsksFor r.files)
      (evalLoad (some m) ev' filename scope) := by
  intro s t states
  have loader : theLoader (some l) filename s = .ok l s := rfl
  have loader' : theLoader (some m) filename t = .ok m t := rfl
  rw [evalLoad, evalLoad, bind_ok loader, bind_ok loader']
  cases loaders filename known with
  | @found key name name' forms asks =>
    rw [bind_ok (fromLoader_ok name filename s), bind_ok (fromLoader_ok name' filename t)]
    refine whileLoading_renamed key ?_ (loaded_within within l filename scope)
      (loaded_within within' m filename scope) s t states
    rw [← forms]
    exact (fromLoader_renamed filename asks).bind fun es own =>
      evalBody_renamed parts scope .nil own
  | missing name name' errors =>
    rw [name, name']
    exact .error states errors

end Forms

theorem step_renamed (parts : ev.Renamed r ev') (within : ∀ e scope, (ev e scope).Within scope)
    (within' : ∀ e scope, (ev' e scope).Within scope) (loaders : l.Renamed r m) :
    Evaluator.Renamed r (step (some l) ev) (step (some m) ev') := by
  intro e asks scope
  unfold step
  cases e with
  | number x => exact renamed_pure (.number x)
  | bigNumber text =>
    have literal : (guarded (integerOf text)).Renamed r Any (guarded (integerOf text)) :=
      guarded_renamed fun _ _ => trivial
    exact literal.bind fun n _ => renamed_pure (.bigNumber n)
  | string text => exact renamed_pure (.string text)
  | boolean b => exact renamed_pure (.boolean b)
  | keyword name => exact renamed_pure (.keyword name)
  | symbol name => exact lookup_renamed scope name
  | bracket elements =>
    refine (evalAll_renamed parts scope (Expr.asksFor_all.mp asks)).bind fun vs values => ?_
    exact renamed_pure (.list values)
  | list elements =>
    cases elements with
    | nil => exact renamed_pure (.list nofun)
    | cons head arguments =>
      obtain ⟨own, later⟩ := List.forall_mem_cons.mp (Expr.asksFor_all.mp asks)
      dsimp only
      split
      · exact evalForm_renamed parts scope _ later
      · exact evalCall_renamed parts scope own later
  | moduleDecl name exports body =>
    exact evalModule_renamed parts scope name exports (Expr.asksFor_all.mp asks)
  | importDecl name => exact evalImport_renamed scope name
  | requireDecl filename visibility =>
    have known : r.files filename := asks filename (List.mem_singleton_self _)
    exact evalRequire_renamed parts scope within within' loaders known visibility
  | loadDecl filename =>
    have known : r.files filename := asks filename (List.mem_singleton_self _)
    exact evalLoad_renamed parts scope within within' loaders known

/-- Evaluation comes out alike over the two loaders. -/
theorem eval_renamed (loaders : l.Renamed r m) (fuel : Nat) :
    Evaluator.Renamed r (eval (some l) fuel) (eval (some m) fuel) := by
  induction fuel with
  | zero => exact fun _ _ _ _ _ _ => .outOfFuel
  | succ fuel ih => exact step_renamed ih (eval_within _ fuel) (eval_within _ fuel) loaders

theorem evalForms_renamed (loaders : l.Renamed r m) (fuel : Nat) (scope : FrameId)
    {forms : List Expr} (asks : ∀ e ∈ forms, e.AsksFor r.files) :
    (evalForms (some l) fuel scope forms).Renamed r (Value.AsksFor r.files)
      (evalForms (some m) fuel scope forms) :=
  evalBody_renamed (eval_renamed loaders fuel) scope .nil asks

end Evaluation

end ModularLisp
