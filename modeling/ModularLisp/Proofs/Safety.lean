import ModularLisp.Proofs.Contracts

/-!
# Safe evaluation

A step keeps a contract over any evaluator that keeps it for the parts of the expression, for the
bodies of functions and for the forms of files. There is one lemma for each form.
-/

namespace ModularLisp

variable {α : Type} {k : Contract} {scope : FrameId} {s t : State}

/-- Only the symbol `lambda` heads the form that makes functions. -/
theorem SpecialForm.ofName?_lambda {name : String}
    (special : SpecialForm.ofName? name = some .lambda) : name = "lambda" := by
  unfold SpecialForm.ofName? at special
  split at special <;> first | rfl | cases special

/-! ## Forms -/

namespace Evaluation

open ModularLisp.Action

/-- The evaluator keeps the contract for an expression, in every scope. -/
def Evaluates (k : Contract) (ev : Evaluator) (e : Expr) : Prop :=
  ∀ scope, (ev e scope).Meets k (Value.MadeFrom k.words)

variable {ev : Evaluator} {gives : α → Prop}

theorem meets_fail (e : EvalError) : (fail e : Action α).Meets k gives :=
  meets_throw e.kind_ne_fault

theorem meets_guarded {r : Except Fault α} (converts : Expr.Converts k.words.overlong gives r) :
    (guarded r).Meets k gives := by
  cases r with
  | ok a => exact meets_pure converts
  | error f => exact fun _ ready => ⟨.inr converts, ready⟩

theorem meets_lift {r : Except EvalError α} (given : ∀ a, r = .ok a → gives a) :
    (lift r).Meets k gives := by
  cases r with
  | ok a => exact meets_pure (given a rfl)
  | error e => exact meets_fail e

theorem evalAll_meets {es : List Expr} (parts : ∀ e ∈ es, Evaluates k ev e) (scope : FrameId) :
    (evalAll ev scope es).Meets k fun vs => ∀ v ∈ vs, v.MadeFrom k.words := by
  induction es with
  | nil => exact meets_pure nofun
  | cons e rest ih =>
    obtain ⟨first, later⟩ := List.forall_mem_cons.mp parts
    refine (first scope).bind fun v made => (ih later).bind fun vs all => ?_
    exact meets_pure (List.forall_mem_cons.mpr ⟨made, all⟩)

theorem evalBody_meets {es : List Expr} (parts : ∀ e ∈ es, Evaluates k ev e) (scope : FrameId)
    {last : Value} (made : last.MadeFrom k.words) :
    (evalBody ev scope last es).Meets k (Value.MadeFrom k.words) := by
  induction es generalizing last with
  | nil => exact meets_pure made
  | cons e rest ih =>
    obtain ⟨first, later⟩ := List.forall_mem_cons.mp parts
    exact (first scope).bind fun v => ih later

theorem evalUntil_meets {es : List Expr} (parts : ∀ e ∈ es, Evaluates k ev e)
    (stops : Value → Bool) (scope : FrameId) {last : Value} (made : last.MadeFrom k.words) :
    (evalUntil ev stops scope last es).Meets k (Value.MadeFrom k.words) := by
  induction es generalizing last with
  | nil => exact meets_pure made
  | cons e rest ih =>
    obtain ⟨first, later⟩ := List.forall_mem_cons.mp parts
    refine (first scope).bind fun v made => ?_
    cases stops v with
    | true => exact meets_pure made
    | false => exact ih later made

section Application

variable (bodies : ∀ c : Closure, c.MadeFrom k.words → ∀ e ∈ c.body, Evaluates k ev e)

include bodies

theorem apply_meets {f : Value} (function : f.MadeFrom k.words) {args : List Value}
    (made : ∀ v ∈ args, v.MadeFrom k.words) :
    (apply ev f args).Meets k (Value.MadeFrom k.words) := by
  cases f with
  | closure stamp c =>
    cases function with
    | closure _ own =>
      exact (meets_enter made).bind fun inner _ => evalBody_meets (bodies c own) inner .nil
  | builtin owner b =>
    refine meets_ofExcept ?_
    have inDomain := Builtin.run_inDomain b args
    cases ran : b.run args with
    | ok v => rw [ran] at inDomain; exact inDomain k.words
    | error e => rwa [ran] at inDomain
  | _ => exact meets_fail _

theorem evalCall_meets {head : Expr} (function : Evaluates k ev head) {arguments : List Expr}
    (parts : ∀ e ∈ arguments, Evaluates k ev e) (scope : FrameId) :
    (evalCall ev head arguments scope).Meets k (Value.MadeFrom k.words) :=
  (function scope).bind fun _ f => (evalAll_meets parts scope).bind fun _ args =>
    apply_meets bodies f args

end Application

theorem evalDefine_meets {arguments : List Expr} (parts : ∀ e ∈ arguments, Evaluates k ev e)
    (scope : FrameId) : (evalDefine ev scope arguments).Meets k (Value.MadeFrom k.words) := by
  match arguments with
  | [target, e] =>
    simp only [evalDefine]
    cases target.symbolName? with
    | none => exact meets_fail _
    | some name =>
      refine (parts e (by simp) scope).bind fun v made => ?_
      exact (meets_define made scope name).bind fun _ _ => meets_pure .nil
  | [] | [_] | _ :: _ :: _ :: _ => exact meets_fail _

theorem evalSet_meets {arguments : List Expr} (parts : ∀ e ∈ arguments, Evaluates k ev e)
    (scope : FrameId) : (evalSet ev scope arguments).Meets k (Value.MadeFrom k.words) := by
  match arguments with
  | [target, e] =>
    simp only [evalSet]
    cases target.symbolName? with
    | none => exact meets_fail _
    | some name =>
      refine (parts e (by simp) scope).bind fun v made => ?_
      exact (meets_set made scope name).bind fun _ _ => meets_pure made
  | [] | [_] | _ :: _ :: _ :: _ => exact meets_fail _

theorem evalConditional_meets {arguments : List Expr}
    (parts : ∀ e ∈ arguments, Evaluates k ev e) (scope : FrameId) :
    (evalConditional ev scope arguments).Meets k (Value.MadeFrom k.words) := by
  match arguments with
  | [condition, consequent] =>
    refine (parts condition (by simp) scope).bind fun v _ => ?_
    cases v.isTruthy with
    | true => exact parts consequent (by simp) scope
    | false => exact meets_pure .nil
  | [condition, consequent, alternative] =>
    refine (parts condition (by simp) scope).bind fun v _ => ?_
    cases v.isTruthy with
    | true => exact parts consequent (by simp) scope
    | false => exact parts alternative (by simp) scope
  | [] | [_] | _ :: _ :: _ :: _ :: _ => exact meets_fail _

theorem expectList_meets {v : Value} (made : v.MadeFrom k.words) (form position : String) :
    (expectList form position v).Meets k fun vs => ∀ v ∈ vs, v.MadeFrom k.words := by
  rw [expectList]
  split
  · rename_i elements sequence
    exact meets_pure (made.list? sequence)
  · exact meets_fail _

theorem evalOnlyList_meets {arguments : List Expr}
    (parts : ∀ e ∈ arguments, Evaluates k ev e) (form : String) (scope : FrameId) :
    (evalOnlyList ev form scope arguments).Meets k fun vs => ∀ v ∈ vs, v.MadeFrom k.words := by
  match arguments with
  | [e] => exact (parts e (by simp) scope).bind fun v made => expectList_meets made _ _
  | [] | _ :: _ :: _ => exact meets_fail _

theorem evalCons_meets {arguments : List Expr} (parts : ∀ e ∈ arguments, Evaluates k ev e)
    (scope : FrameId) : (evalCons ev scope arguments).Meets k (Value.MadeFrom k.words) := by
  match arguments with
  | [head, tail] =>
    refine (parts head (by simp) scope).bind fun v made => ?_
    refine (parts tail (by simp) scope).bind fun w others => ?_
    refine (expectList_meets others _ _).bind fun vs all => ?_
    exact meets_pure (.list (List.forall_mem_cons.mpr ⟨made, all⟩))
  | [] | [_] | _ :: _ :: _ :: _ => exact meets_fail _

theorem evalQuote_meets {arguments : List Expr} (readable : ∀ e ∈ arguments, e.ReadFrom k.words) :
    (evalQuote arguments).Meets k (Value.MadeFrom k.words) := by
  match arguments with
  | [e] => exact meets_guarded (readable e (by simp)).datum
  | [] | _ :: _ :: _ => exact meets_fail _

theorem evalLambda_meets (lambda : k.words.symbol "lambda") {arguments : List Expr}
    (readable : ∀ e ∈ arguments, e.ReadFrom k.words) (scope : FrameId) :
    (evalLambda scope arguments).Meets k (Value.MadeFrom k.words) := by
  match arguments with
  | [] => exact meets_fail _
  | header :: body =>
    simp only [evalLambda]
    split
    · refine (meets_lift fun _ _ => trivial).bind fun formals _ => ?_
      refine meets_stamp.bind fun stamp _ => meets_pure (.closure stamp ⟨lambda, ?_⟩)
      exact fun e member => readable e (List.mem_cons_of_mem header member)
    · exact meets_fail _

theorem sizeOf_lt_of_elements? {e : Expr} {elements : List Expr}
    (sequence : e.elements? = some elements) : ∀ x ∈ elements, sizeOf x < sizeOf e := by
  intro x member
  have smaller := List.sizeOf_lt_of_mem member
  cases e with
  | list es | bracket es =>
    cases sequence
    simp only [Expr.list.sizeOf_spec, Expr.bracket.sizeOf_spec]
    omega
  | _ => cases sequence

theorem bindingOf_readFrom {binding : Expr} (readable : binding.ReadFrom k.words)
    {entry : String × Expr} (read : bindingOf binding = .ok entry) :
    entry.2.ReadFrom k.words ∧ sizeOf entry.2 < sizeOf binding := by
  simp only [bindingOf] at read
  split at read
  · rename_i name e sequence
    split at read
    · cases read
      exact ⟨readable.elements? sequence e (by simp), sizeOf_lt_of_elements? sequence e (by simp)⟩
    · cases read
  · cases read

theorem evalBindings_meets {bindings : List Expr}
    (readable : ∀ binding ∈ bindings, binding.ReadFrom k.words)
    (inside : ∀ binding ∈ bindings, ∀ e, sizeOf e < sizeOf binding → e.ReadFrom k.words →
      Evaluates k ev e) (scope : FrameId) :
    (evalBindings ev scope bindings).Meets k
      fun entries => ∀ entry ∈ entries, entry.2.MadeFrom k.words := by
  induction bindings with
  | nil => exact meets_pure nofun
  | cons binding rest ih =>
    obtain ⟨first, later⟩ := List.forall_mem_cons.mp readable
    obtain ⟨own, others⟩ := List.forall_mem_cons.mp inside
    refine (meets_lift fun entry => bindingOf_readFrom first).bind fun entry given => ?_
    refine (own entry.2 given.2 given.1 scope).bind fun v made => ?_
    refine (ih later others).bind fun entries all => ?_
    exact meets_pure (List.forall_mem_cons.mpr ⟨made, all⟩)

section Arguments

variable {arguments : List Expr} (readable : ∀ e ∈ arguments, e.ReadFrom k.words)
  (inside : ∀ e, sizeOf e < sizeOf arguments → e.ReadFrom k.words → Evaluates k ev e)

include readable inside

theorem evalLet_meets (scope : FrameId) :
    (evalLet ev scope arguments).Meets k (Value.MadeFrom k.words) := by
  match arguments with
  | [] => exact meets_fail _
  | header :: body =>
    obtain ⟨first, later⟩ := List.forall_mem_cons.mp readable
    simp only [evalLet]
    split
    · rename_i bindings sequence
      have size : sizeOf header + sizeOf body < sizeOf (header :: body) := by
        simp only [List.cons.sizeOf_spec]
        omega
      refine (evalBindings_meets (first.elements? sequence) ?_ scope).bind fun bound made => ?_
      · intro binding member e smaller
        have nested := sizeOf_lt_of_elements? sequence binding member
        exact inside e (by omega)
      · refine (meets_openScope scope).bind fun inner _ => ?_
        refine (meets_defineAll made inner).bind fun _ _ => ?_
        refine evalBody_meets (fun e member => ?_) inner .nil
        have smaller := List.sizeOf_lt_of_mem member
        exact inside e (by omega) (later e member)
    · exact meets_fail _

theorem evalForm_meets (form : SpecialForm) (lambda : form = .lambda → k.words.symbol "lambda")
    (scope : FrameId) : (evalForm ev form arguments scope).Meets k (Value.MadeFrom k.words) := by
  have parts : ∀ e ∈ arguments, Evaluates k ev e := fun e member =>
    inside e (List.sizeOf_lt_of_mem member) (readable e member)
  cases form with
  | quote => exact evalQuote_meets readable
  | define => exact evalDefine_meets parts scope
  | set => exact evalSet_meets parts scope
  | lambda => exact evalLambda_meets (lambda rfl) readable scope
  | conditional => exact evalConditional_meets parts scope
  | bindLocally => exact evalLet_meets readable inside scope
  | sequence => exact evalBody_meets parts scope .nil
  | conjunction | disjunction => exact evalUntil_meets parts _ scope (.boolean _)
  | list => exact (evalAll_meets parts scope).bind fun vs made => meets_pure (.list made)
  | isEmpty =>
    exact (evalOnlyList_meets parts _ scope).bind fun vs _ => meets_pure (.boolean _)
  | length => exact (evalOnlyList_meets parts _ scope).bind fun vs _ => meets_pure (.number _)
  | first =>
    refine (evalOnlyList_meets parts _ scope).bind fun vs made => ?_
    cases vs with
    | nil => exact meets_fail _
    | cons v rest => exact meets_pure (made v List.mem_cons_self)
  | rest =>
    refine (evalOnlyList_meets parts _ scope).bind fun vs made => ?_
    cases vs with
    | nil => exact meets_fail _
    | cons v rest => exact meets_pure (.list fun w member => made w (List.mem_cons_of_mem v member))
  | cons => exact evalCons_meets parts scope

end Arguments

/-! ## Modules -/

theorem makeNameSpace_meets {members : Bindings Value}
    (made : members.All (Value.MadeFrom k.words)) (name : String) :
    (makeNameSpace name members).Meets k (Value.MadeFrom k.words) :=
  meets_stamp.bind fun stamp _ => meets_pure (.nameSpace stamp name made)

/-- Reading the exports of bound modules never misses one. -/
theorem exported_meets {ms : List Module} (ready : s.Ready k)
    (bound : ∀ m ∈ ms, m.Bound s.heap) :
    (exported ms s).Meets k (Bindings.All (Value.MadeFrom k.words)) := by
  obtain ⟨b, found, -⟩ := Module.exportedByAll_of_bound bound
  simp only [exported, found]
  exact ⟨Module.exportedByAll_made ready.made found, ready⟩

theorem evalModule_meets {body : List Expr} (parts : ∀ e ∈ body, Evaluates k ev e) (name : String)
    (exports : List String) (scope : FrameId) :
    (evalModule ev name exports body scope).Meets k (Value.MadeFrom k.words) := by
  refine (meets_openScope scope).bind fun inner _ => ?_
  refine (evalBody_meets parts inner .nil).bind fun _ _ => ?_
  intro s ready
  have known : undefinedIn inner exports s = .ok _ s := rfl
  rw [bind_ok known]
  split
  · rename_i none_missing
    have bound : ∀ x ∈ exports, (s.heap.bindings inner).binds x = true := by
      simpa using none_missing
    let m : Module := ⟨name, inner, exports⟩
    have declared : declare m s = .ok () _ := rfl
    rw [bind_ok declared]
    have after := ready.evolves (.declare scope s m bound) ready.made
    have found : (s.registry.register m).modules.find? name = some m :=
      (Bindings.find?_insert _ _ _ _).trans (if_pos rfl)
    have registered : m.Bound s.heap := after.sound.registry m (.named found)
    refine meets_bind_at (exported_meets after ?_) fun members t _ ready made => ?_
    · exact fun x member => List.mem_singleton.mp member ▸ registered
    · refine ((makeNameSpace_meets made name).bind fun v own => ?_) t ready
      exact (meets_define own scope name).bind fun _ _ => meets_pure .nil
  · exact meets_fail _ s ready

theorem evalImport_meets (name : String) (scope : FrameId) :
    (evalImport name scope).Meets k (Value.MadeFrom k.words) := by
  intro s ready
  have looked : registered? name s = .ok (s.registry.modules.find? name) s := rfl
  rw [evalImport, bind_ok looked]
  cases found : s.registry.modules.find? name with
  | none => exact meets_fail _ s ready
  | some m =>
    have bound := ready.sound.registry m (.named found)
    refine meets_bind_at (exported_meets ready ?_) fun members t _ after made => ?_
    · exact fun x member => List.mem_singleton.mp member ▸ bound
    · exact ((meets_defineAll made scope).bind fun _ _ => meets_pure .nil) t after

/-! ## Files -/

theorem choose_made {filename : String} {exports : Bindings Value}
    (made : exports.All (Value.MadeFrom k.words)) {chosen : List String} {b : Bindings Value}
    (done : choose filename exports chosen = .ok b) : b.All (Value.MadeFrom k.words) := by
  refine foldlM_keeps (P := Bindings.All (Value.MadeFrom k.words)) ?_ Bindings.all_empty done
  intro name _ b b' kept stepped
  split at stepped
  · rename_i v found
    cases stepped
    exact kept.insert name (made.find? found)
  · cases stepped

theorem makeVisible_meets {exports : Bindings Value}
    (made : exports.All (Value.MadeFrom k.words)) (filename : String) (visibility : Visibility)
    (scope : FrameId) : (makeVisible filename visibility exports scope).Meets k fun _ => True := by
  cases visibility with
  | all => exact meets_defineAll made scope
  | qualified qualifier =>
    exact (makeNameSpace_meets made qualifier).bind fun v own => meets_define own scope qualifier
  | only chosen =>
    refine (meets_lift fun b => choose_made made).bind fun b found => ?_
    exact meets_defineAll found scope

theorem shareExports_meets {ms : List Module} (ready : s.Ready k)
    (bound : ∀ m ∈ ms, m.Bound s.heap) (filename : String) (visibility : Visibility)
    (scope : FrameId) :
    (shareExports filename visibility ms scope s).Meets k (Value.MadeFrom k.words) := by
  refine meets_bind_at (exported_meets ready bound) fun exports t _ after made => ?_
  exact ((makeVisible_meets made filename visibility scope).bind fun _ _ => meets_pure .nil) t after

end Evaluation

namespace Loader

/-- A loader as its protocol has it: it serves trees as reading gives them, from the vocabulary,
and fails with errors that are no faults or with failures of its host. -/
structure Serves (words : Vocabulary) (l : Loader) : Prop where
  locating : ∀ filename e, l.canonicalName filename = .error (.error e) → e.kind ≠ .fault
  reading : ∀ filename e, l.forms filename = .error (.error e) → e.kind ≠ .fault
  forms : ∀ filename forms, l.forms filename = .ok forms → ∀ e ∈ forms, e.ReadFrom words

theorem formsOf_ok {source : String} {forms : List Expr} (served : formsOf source = .ok forms) :
    Expr.readAll source = .ok forms :=
  mapError_eq_ok served

theorem formsOf_error {source : String} {failure : LoadFailure}
    (failed : formsOf source = .error failure) : ∃ e, failure = .error (.read e) := by
  simp only [formsOf] at failed
  cases read : Expr.readAll source with
  | ok forms => rw [read] at failed; cases failed
  | error e =>
    rw [read] at failed
    cases failed
    exact ⟨e, rfl⟩

theorem forms_ofTable {sources : Bindings String} {filename : String} {forms : List Expr}
    (served : (ofTable sources).forms filename = .ok forms) :
    ∃ text, sources.find? filename = some text ∧ Expr.readAll text = .ok forms := by
  simp only [ofTable] at served
  split at served
  · rename_i text found
    exact ⟨text, found, formsOf_ok served⟩
  · cases served

theorem ofTable_serves {words : Vocabulary} {sources : Bindings String}
    (read : ∀ filename source, sources.find? filename = some source →
      ∀ forms, Expr.readAll source = .ok forms → ∀ e ∈ forms, e.ReadFrom words) :
    (ofTable sources).Serves words where
  locating := by
    intro filename e failed
    simp only [ofTable] at failed
    split at failed
    · cases failed
    · cases failed
      exact LoadError.kind_ne_fault _
  reading := by
    intro filename e failed
    simp only [ofTable] at failed
    split at failed
    · obtain ⟨reason, same⟩ := formsOf_error failed
      cases same
      exact ReadError.kind_ne_fault reason
    · cases failed
      exact LoadError.kind_ne_fault _
  forms := by
    intro filename forms served
    obtain ⟨text, found, parsed⟩ := forms_ofTable served
    exact read filename text found forms parsed

end Loader

namespace Evaluation

open ModularLisp.Action

theorem fromLoader_meets {gives : α → Prop} {r : Except LoadFailure α}
    (proper : ∀ e, r = .error (.error e) → e.kind ≠ .fault) (given : ∀ a, r = .ok a → gives a)
    (filename : String) : (fromLoader filename r).Meets k gives := by
  cases r with
  | ok a => exact meets_pure (given a rfl)
  | error failure =>
    cases failure with
    | error e => exact meets_throw (proper e rfl)
    | host reason => exact meets_throw (LoadError.kind_ne_fault _)

theorem evalRequired_meets {ev : Evaluator} {l : Loader} (serves : l.Serves k.words)
    {filename : String} (parts : ∀ forms, l.forms filename = .ok forms →
      ∀ part ∈ forms, Evaluates k ev part) (scope : FrameId) :
    (evalRequired ev l filename scope).Meets k (Value.MadeFrom k.words) := by
  refine (fromLoader_meets (serves.reading filename) parts filename).bind fun forms parts => ?_
  refine (meets_rootOf scope).bind fun root _ => ?_
  exact (meets_openScope root).bind fun inner _ => evalBody_meets parts inner .nil

/-- The evaluator keeps the contract for all that a step on `e` may ask of it: for smaller trees,
for the bodies of functions, and for the forms of files that are not in progress yet. -/
structure Supports (k : Contract) (loader : Option Loader) (ev : Evaluator) (e : Expr) : Prop where
  within : ∀ e scope, (ev e scope).Within scope
  inside : ∀ part, sizeOf part < sizeOf e → part.ReadFrom k.words → Evaluates k ev part
  bodies : ∀ c : Closure, c.MadeFrom k.words → ∀ part ∈ c.body, Evaluates k ev part
  required : ∀ l key filename forms, loader = some l → IsCanonical loader key →
    key ∉ k.requiring → l.forms filename = .ok forms →
    ∀ part ∈ forms, Evaluates (k.require key) ev part
  loaded : ∀ l key filename forms, loader = some l → IsCanonical loader key →
    key ∉ k.loading → l.forms filename = .ok forms → ∀ part ∈ forms, Evaluates (k.load key) ev part

namespace Supports

variable {loader : Option Loader} {ev : Evaluator} {e : Expr}
  (serves : ∀ l, loader = some l → l.Serves k.words) (supports : Supports k loader ev e)

include serves supports

/-- A file that begins to be required is evaluated under the contract with it in progress. -/
theorem evalRequired_begun {l : Loader} (given : loader = some l) {filename key : String}
    (canonical : l.canonicalName filename = .ok key) (ready : s.Ready k) {p : Progress}
    (begun : s.progress.beginRequire key = .ok p) (scope : FrameId) :
    (evalRequired ev l filename scope { s with progress := p }).Meets (k.require key)
      (Value.MadeFrom k.words) := by
  have named : IsCanonical loader key := ⟨l, filename, given, canonical⟩
  have serving : l.Serves (k.require key).words := serves l given
  have sound := ready.sound.beginRequire begun
  obtain ⟨unopened, rfl⟩ := Progress.beginRequire_ok begun
  rw [ready.requiring] at unopened
  have begins : State.Ready (k.require key) { s with progress := _ } :=
    ⟨sound, ready.made, congrArg (key :: ·) ready.requiring, ready.loading⟩
  exact evalRequired_meets serving (fun forms served =>
    supports.required l key filename forms given named unopened served) scope _ begins

theorem requiredModules_meets (filename : String) (scope : FrameId) :
    (requiredModules loader ev filename scope).Meets k fun _ => True := by
  intro s ready
  cases loader with
  | none => exact ⟨.inl (LoadError.kind_ne_fault _), ready⟩
  | some l =>
    cases canonical : l.canonicalName filename with
    | error failure =>
      rw [(requiredModules_unknown canonical).1]
      cases failure with
      | error e => exact ⟨.inl ((serves l rfl).locating filename e canonical), ready⟩
      | host reason => exact ⟨.inl (LoadError.kind_ne_fault _), ready⟩
    | ok key =>
      have case := requiredModules_cases supports.within canonical scope s
      have after : ∀ t, (requiredModules (some l) ev filename scope).Ends s t →
          t.heap.MadeFrom k.words → t.Ready k := fun t ended =>
        ready.evolves (requiredModules_within supports.within (some l) filename scope s t ended)
      have inner : ∀ {p}, s.progress.beginRequire key = .ok p →
          (evalRequired ev l filename scope { s with progress := p }).Meets (k.require key)
            (Value.MadeFrom k.words) := fun begun =>
        supports.evalRequired_begun serves rfl canonical ready begun scope
      generalize required : requiredModules (some l) ev filename scope s = r at case ⊢
      cases case with
      | cached => exact ⟨trivial, ready⟩
      | circle => exact ⟨.inl (EvalError.kind_ne_fault _), ready⟩
      | lacking _ begun lacks =>
        have meets := inner begun
        rw [lacks] at meets
        exact meets
      | failed _ begun ended =>
        have meets := inner begun
        rw [ended] at meets
        exact ⟨meets.1, after _ (ends_of_error required) meets.2.made⟩
      | undeclared _ begun ended =>
        have meets := inner begun
        rw [ended] at meets
        exact ⟨.inl (EvalError.kind_ne_fault _), after _ (ends_of_error required) meets.2.made⟩
      | declared _ begun ended =>
        have meets := inner begun
        rw [ended] at meets
        exact ⟨trivial, after _ (ends_of_ok required) meets.2.made⟩

theorem evalRequire_meets (filename : String) (visibility : Visibility) (scope : FrameId) :
    (evalRequire loader ev filename visibility scope).Meets k (Value.MadeFrom k.words) := by
  intro s ready
  rw [evalRequire_eq]
  have found := supports.requiredModules_meets serves filename scope s ready
  refine meets_bind_at found fun ms t required after _ => ?_
  refine shareExports_meets after (fun m member => ?_) filename visibility scope
  cases loader with
  | none => cases required
  | some l =>
    cases canonical : l.canonicalName filename with
    | error failure => cases (requiredModules_unknown canonical).1.symm.trans required
    | ok key =>
      have cached := caches_of_ok supports.within canonical required
      exact after.sound.registry m (.declared cached member)

theorem evalLoad_meets (filename : String) (scope : FrameId) :
    (evalLoad loader ev filename scope).Meets k (Value.MadeFrom k.words) := by
  cases loader with
  | none => exact meets_throw (LoadError.kind_ne_fault _)
  | some l =>
    have served := serves l rfl
    have found : (fromLoader filename (l.canonicalName filename)).Meets k
        fun key => l.canonicalName filename = .ok key :=
      fromLoader_meets (served.locating filename) (fun _ canonical => canonical) filename
    have within := loaded_within supports.within l filename scope
    refine found.bind fun key canonical => meets_whileLoading within fun unopened => ?_
    have named : IsCanonical (some l) key := ⟨l, filename, rfl, canonical⟩
    have parts : ∀ forms, l.forms filename = .ok forms → ∀ part ∈ forms,
        Evaluates (k.load key) ev part := fun forms =>
      supports.loaded l key filename forms rfl named unopened
    refine (fromLoader_meets (served.reading filename) parts filename).bind fun forms parts => ?_
    exact evalBody_meets parts scope .nil

end Supports

/-- A step keeps the contract. -/
theorem step_meets {loader : Option Loader} {ev : Evaluator} {e : Expr}
    (serves : ∀ l, loader = some l → l.Serves k.words) (supports : Supports k loader ev e)
    (readable : e.ReadFrom k.words) (scope : FrameId) :
    (step loader ev e scope).Meets k (Value.MadeFrom k.words) := by
  cases readable with
  | number x => exact meets_pure (.number x)
  | bigNumber denotes digits =>
    refine (meets_guarded (Expr.converts_integerOf denotes digits)).bind fun n _ => ?_
    exact meets_pure (.bigNumber n)
  | string text => exact meets_pure (.string text)
  | boolean b => exact meets_pure (.boolean b)
  | keyword name => exact meets_pure (.keyword name)
  | symbol => exact meets_lookup scope _
  | @bracket elements parts =>
    have inner : ∀ part ∈ elements, Evaluates k ev part := fun part member =>
      supports.inside part (sizeOf_lt_of_elements? rfl part member) (parts part member)
    exact (evalAll_meets inner scope).bind fun vs made => meets_pure (.list made)
  | @list elements parts =>
    cases elements with
    | nil => exact meets_pure (.list fun v member => absurd member List.not_mem_nil)
    | cons head arguments =>
      obtain ⟨first, later⟩ := List.forall_mem_cons.mp parts
      simp only [step]
      cases named : head.symbolName?.bind SpecialForm.ofName? with
      | some form =>
        obtain ⟨name, symbol, special⟩ := Option.bind_eq_some_iff.mp named
        refine evalForm_meets later (fun e smaller => ?_) form ?_ scope
        · refine supports.inside e ?_
          simp only [Expr.list.sizeOf_spec, List.cons.sizeOf_spec]
          omega
        · rintro rfl
          exact SpecialForm.ofName?_lambda special ▸ first.symbolName?_named symbol
      | none =>
        have inner : ∀ part ∈ head :: arguments, Evaluates k ev part := fun part member =>
          supports.inside part (sizeOf_lt_of_elements? rfl part member) (parts part member)
        obtain ⟨function, others⟩ := List.forall_mem_cons.mp inner
        exact evalCall_meets supports.bodies function others scope
  | @moduleDecl name exports body _ _ parts =>
    refine evalModule_meets (fun part member => supports.inside part ?_ (parts part member)) _ _ _
    have smaller := List.sizeOf_lt_of_mem member
    simp only [Expr.moduleDecl.sizeOf_spec]
    omega
  | importDecl => exact evalImport_meets _ scope
  | loadDecl filename => exact supports.evalLoad_meets serves filename scope
  | requireDecl filename => exact supports.evalRequire_meets serves filename _ scope

end Evaluation

/-! ## Texts -/

namespace Outcome

/-- The outcome keeps the contract: a value from the contract's vocabulary, an error that the
contract admits, or the lack of fuel if the contract allows it. -/
def Meets (k : Contract) : Outcome → Prop
  | .value v => v.MadeFrom k.words
  | .error e => k.Admits e
  | .outOfFuel => k.lacking

end Outcome

namespace Session

variable {loader : Option Loader} {fuel : Nat} {source : String} {session : Session}

theorem evalSource_meets (parts : ∀ forms, Expr.readAll source = .ok forms →
      ∀ e ∈ forms, Evaluation.Evaluates k (Evaluation.eval loader fuel) e) (i : Interpreter) :
    (evalSource loader fuel source i).Meets k (Value.MadeFrom k.words) := by
  simp only [evalSource]
  split
  · rename_i forms read
    exact Evaluation.evalBody_meets (parts forms read) i.root .nil
  · exact Action.meets_throw (ReadError.kind_ne_fault _)

theorem eval_meets (ready : ∀ i ∈ session.interpreters, (session.stateOf i).Ready k)
    (made : session.heap.MadeFrom k.words)
    (meets : ∀ i, (evalSource loader fuel source i).Meets k (Value.MadeFrom k.words))
    (index : Nat) : (session.eval loader fuel index source).1.Meets k ∧
      (session.eval loader fuel index source).2.heap.MadeFrom k.words := by
  simp only [eval, perform]
  split
  · exact ⟨.nil, made⟩
  · rename_i i found
    have ended := meets i (session.stateOf i) (ready i (Array.mem_of_getElem? found))
    split
    · rename_i v t evaluated
      rw [evaluated] at ended
      exact ⟨ended.1, ended.2.made⟩
    · rename_i e t failed
      rw [failed] at ended
      exact ⟨ended.1, ended.2.made⟩
    · rename_i lacks
      rw [lacks] at ended
      exact ⟨ended, made⟩

/-- Between evaluations nothing is in progress. -/
theorem Reachable.ready (reachable : session.Reachable) (made : session.heap.MadeFrom k.words)
    (requiring : k.requiring = []) (loading : k.loading = []) :
    ∀ i ∈ session.interpreters, (session.stateOf i).Ready k := by
  intro i member
  have idle := reachable.idle i member
  refine ⟨reachable.sound.stateOf idle, made, ?_, ?_⟩
  · rw [requiring, stateOf, idle]
    rfl
  · rw [loading, stateOf, idle]
    rfl

theorem made_empty (words : Vocabulary) : empty.heap.MadeFrom words :=
  fun _ => Bindings.all_empty

theorem made_addInterpreter {words : Vocabulary} (made : session.heap.MadeFrom words)
    (registry : Nat) : (session.addInterpreter registry).heap.MadeFrom words := by
  refine made.push (Bindings.all_empty.insertAll fun entry member => ?_)
  obtain ⟨b, -, rfl⟩ := List.mem_map.mp member
  exact .builtin _ b

end Session

end ModularLisp
