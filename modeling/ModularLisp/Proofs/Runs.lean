import ModularLisp.Proofs.Courses

/-!
# Every run follows a course

One lemma for each form: over any evaluator, the form makes its calls and changes the state in the
way of a course. Induction on the fuel then shows that whatever ends has evolved the state.
-/

namespace ModularLisp

variable {α β : Type} {loader : Option Loader} {ev : Evaluator}
  {deeds : Deeds}

/-- Only symbols have a symbol's name. -/
theorem Expr.symbolName?_eq_some {e : Expr} {name : String} :
    e.symbolName? = some name ↔ e = .symbol name := by
  cases e <;> simp [symbolName?]

/-- Only the symbol `set` heads the form that changes bindings. -/
theorem SpecialForm.ofName?_set {name : String}
    (special : SpecialForm.ofName? name = some .set) : name = "set" := by
  unfold SpecialForm.ofName? at special
  split at special <;> first | rfl | cases special

namespace Evaluation

open ModularLisp.Action

/-- The call is a `set` form that gives a name another value in the frame `i`, the nearest one that
binds it. -/
inductive Sets (ev : Evaluator) : Call → FrameId → String → Prop
  | intro {name : String} {e : Expr} {scope i : FrameId} {s t : State} {v : Value}
    (evaluated : ev e scope s = .ok v t) (seen : t.heap.find? scope name = some i)
    (another : (t.heap.bindings i).find? name ≠ some v) :
    Sets ev ⟨.list [.symbol "set", .symbol name, e], scope, s⟩ i name

/-! ## Forms -/

theorem evalAll_follows (scope : FrameId) (es : List Expr) :
    (evalAll ev scope es).Follows loader ev deeds scope (sequenceCalls ev scope es) := by
  induction es with
  | nil => exact follows_pure []
  | cons e rest ih =>
    exact (follows_one e scope).bind fun v => ih.before fun vs => follows_pure (v :: vs)

theorem evalBody_follows (scope : FrameId) (last : Value) (es : List Expr) :
    (evalBody ev scope last es).Follows loader ev deeds scope (sequenceCalls ev scope es) := by
  induction es generalizing last with
  | nil => exact follows_pure _
  | cons e rest ih => exact (follows_one e scope).bind ih

theorem evalUntil_follows (stops : Value → Bool) (scope : FrameId) (last : Value)
    (es : List Expr) : (evalUntil ev stops scope last es).Follows loader ev deeds scope
      (untilCalls ev stops scope es) := by
  induction es generalizing last with
  | nil => exact follows_pure last
  | cons e rest ih =>
    refine (follows_one e scope).bind fun v => ?_
    cases stops v with
    | true => exact follows_pure v
    | false => exact ih v

theorem apply_follows (scope : FrameId) (f : Value) (args : List Value) :
    (apply ev f args).Follows loader ev deeds scope (applyCalls ev f args) := by
  cases f with
  | closure stamp c => exact follows_enter fun i => evalBody_follows i _ _
  | builtin owner b => exact (reads_ofExcept _).follows
  | _ => exact (reads_fail _).follows

theorem evalCall_follows (scope : FrameId) (head : Expr) (arguments : List Expr) :
    (evalCall ev head arguments scope).Follows loader ev deeds scope
      (applicationCalls ev head arguments scope) :=
  (follows_one head scope).bind fun f =>
    (evalAll_follows scope arguments).bind fun args => apply_follows scope f args

theorem evalDefine_follows (scope : FrameId) : ∀ arguments, (evalDefine ev scope arguments).Follows
    loader ev deeds scope (assignmentCalls scope arguments)
  | [target, e] => by
    simp only [evalDefine, assignmentCalls]
    cases target.symbolName? with
    | some name =>
      refine (follows_one e scope).before fun v => ?_
      exact (follows_define scope name v).before fun _ => follows_pure _
    | none => exact (reads_fail _).follows
  | [] | [_] | _ :: _ :: _ :: _ => (reads_fail _).follows

theorem evalSet_follows (scope : FrameId) (s : State) : ∀ arguments,
    (∀ i name, Sets ev ⟨.list (.symbol "set" :: arguments), scope, s⟩ i name →
      deeds.sets i name) →
    Course loader ev deeds scope s (assignmentCalls scope arguments s)
      (evalSet ev scope arguments s).state?
  | [target, e], allowed => by
    simp only [evalSet, assignmentCalls]
    cases symbol : target.symbolName? with
    | some name =>
      obtain rfl := Expr.symbolName?_eq_some.mp symbol
      refine course_before (Course.call e scope s) fun v t evaluated => ?_
      have changed : Course loader ev deeds scope t [] (Action.set scope name v t).state? :=
        course_set scope name v fun i seen another => allowed i name (.intro evaluated seen another)
      exact course_before changed fun _ u _ => follows_pure v u
    | none => exact (reads_fail _).follows s
  | [], _ | [_], _ | _ :: _ :: _ :: _, _ => (reads_fail _).follows s

theorem evalBindings_follows (scope : FrameId) (bindings : List Expr) :
    (evalBindings ev scope bindings).Follows loader ev deeds scope
      (bindingCalls ev scope bindings) := by
  induction bindings with
  | nil => exact follows_pure []
  | cons binding rest ih =>
    refine (reads_lift _).bind_follows fun entry => ?_
    exact (follows_one entry.2 scope).bind fun v => ih.before fun bound => follows_pure _

theorem evalLet_follows (scope : FrameId) : ∀ arguments, (evalLet ev scope arguments).Follows
    loader ev deeds scope (letCalls ev scope arguments)
  | [] => (reads_fail _).follows
  | header :: body => by
    simp only [evalLet, letCalls]
    cases header.elements? with
    | none => exact (reads_fail _).follows
    | some bindings =>
      refine (evalBindings_follows scope bindings).bind fun bound => ?_
      refine follows_openScope fun inner => ?_
      exact (follows_defineAll inner bound).bind fun _ => evalBody_follows inner _ body

theorem evalConditional_follows (scope : FrameId) : ∀ arguments,
    (evalConditional ev scope arguments).Follows loader ev deeds scope
      (conditionalCalls ev scope arguments)
  | [condition, consequent] => by
    refine (follows_one condition scope).bind fun v => ?_
    cases v.isTruthy with
    | true => exact follows_one consequent scope
    | false => exact follows_pure _
  | [condition, consequent, alternative] => by
    refine (follows_one condition scope).bind fun v => ?_
    cases v.isTruthy with
    | true => exact follows_one consequent scope
    | false => exact follows_one alternative scope
  | [] | [_] | _ :: _ :: _ :: _ :: _ => (reads_fail _).follows

theorem evalOnlyList_follows (form : String) (scope : FrameId) : ∀ arguments,
    (evalOnlyList ev form scope arguments).Follows loader ev deeds scope
      (onlyListCalls scope arguments)
  | [e] => (follows_one e scope).before fun v => (reads_expectList form "argument" v).follows
  | [] | _ :: _ :: _ => (reads_fail _).follows

theorem evalCons_follows (scope : FrameId) : ∀ arguments, (evalCons ev scope arguments).Follows
    loader ev deeds scope (consCalls ev scope arguments)
  | [head, tail] => by
    refine (follows_one head scope).bind fun v => (follows_one tail scope).bind fun w => ?_
    exact (reads_expectList _ _ w).follows.before fun _ => follows_pure _
  | [] | [_] | _ :: _ :: _ :: _ => (reads_fail _).follows

theorem evalLambda_follows (scope : FrameId) (arguments : List Expr) :
    (evalLambda scope arguments).Follows loader ev deeds scope .none := by
  simp only [evalLambda]
  split
  · exact (reads_fail _).follows
  · split
    · refine (reads_lift _).follows.before fun formals => ?_
      exact follows_stamp.before fun _ => follows_pure _
    · exact (reads_fail _).follows

theorem evalForm_follows {form : SpecialForm} (other : form ≠ .set) (arguments : List Expr)
    (scope : FrameId) : (evalForm ev form arguments scope).Follows loader ev deeds scope
      (formCalls ev form arguments scope) := by
  cases form with
  | quote => exact (reads_evalQuote arguments).follows
  | define => exact evalDefine_follows scope arguments
  | set => exact absurd rfl other
  | lambda => exact evalLambda_follows scope arguments
  | conditional => exact evalConditional_follows scope arguments
  | bindLocally => exact evalLet_follows scope arguments
  | sequence => exact evalBody_follows scope .nil arguments
  | conjunction | disjunction => exact evalUntil_follows _ scope _ arguments
  | list => exact (evalAll_follows scope arguments).before fun vs => follows_pure _
  | isEmpty | length =>
    exact (evalOnlyList_follows _ scope arguments).before fun vs => follows_pure _
  | first | rest =>
    refine (evalOnlyList_follows _ scope arguments).before fun vs => ?_
    split
    · exact follows_pure _
    · exact (reads_fail _).follows
  | cons => exact evalCons_follows scope arguments

/-! ## Declarations -/

theorem makeNameSpace_follows (scope : FrameId) (name : String) (members : Bindings Value) :
    (makeNameSpace name members).Follows loader ev deeds scope .none :=
  follows_stamp.before fun _ => follows_pure _

theorem makeVisible_follows (filename : String) (visibility : Visibility)
    (exports : Bindings Value) (scope : FrameId) :
    (makeVisible filename visibility exports scope).Follows loader ev deeds scope .none := by
  cases visibility with
  | all => exact follows_defineAll scope _
  | qualified qualifier =>
    exact (makeNameSpace_follows scope qualifier exports).before fun v =>
      follows_define scope _ v
  | only names => exact (reads_lift _).follows.before fun chosen => follows_defineAll scope _

/-- What a require does once it has its modules. -/
def shareExports (filename : String) (visibility : Visibility) (ms : List Module)
    (scope : FrameId) : Action Value := do
  let exports ← exported ms
  makeVisible filename visibility exports scope
  Pure.pure .nil

theorem evalRequire_eq (loader : Option Loader) (filename : String) (visibility : Visibility)
    (scope : FrameId) : evalRequire loader ev filename visibility scope =
      requiredModules loader ev filename scope >>= fun ms =>
        shareExports filename visibility ms scope := rfl

theorem shareExports_follows (filename : String) (visibility : Visibility) (ms : List Module)
    (scope : FrameId) :
    (shareExports filename visibility ms scope).Follows loader ev deeds scope .none := by
  refine (reads_exported ms).follows.before fun exports => ?_
  exact (makeVisible_follows filename visibility exports scope).before fun _ => follows_pure _

theorem evalImport_follows (name : String) (scope : FrameId) :
    (evalImport name scope).Follows loader ev deeds scope .none := by
  refine (reads_registered? name).follows.before fun found => ?_
  cases found with
  | none => exact (reads_fail _).follows
  | some m =>
    refine (reads_exported [m]).follows.before fun members => ?_
    exact (follows_defineAll scope _).before fun _ => follows_pure _

/-- A module is registered only when its own scope binds all that it exports. -/
theorem evalModule_follows {name : String} {exports : List String} (body : List Expr)
    (scope : FrameId) (allowed : ∀ i, deeds.declares ⟨name, i, exports⟩) :
    (evalModule ev name exports body scope).Follows loader ev deeds scope
      (moduleCalls ev body scope) := by
  intro s
  have opened := openScope_eq scope s
  rw [evalModule, bind_ok opened, moduleCalls, Calls.after_ok opened]
  have inner : (evalBody ev s.heap.next .nil body).Follows loader ev deeds s.heap.next
      (sequenceCalls ev s.heap.next body) := evalBody_follows s.heap.next .nil body
  have whole := Course.inside scope (s.heap.innerFrame scope) rfl
    (inner { s with heap := s.heap.push (s.heap.innerFrame scope) })
  cases evaluated : evalBody ev s.heap.next .nil body
      { s with heap := s.heap.push (s.heap.innerFrame scope) } with
  | error e t =>
    rw [bind_error evaluated]
    rwa [evaluated] at whole
  | outOfFuel =>
    rw [bind_outOfFuel evaluated]
    rwa [evaluated] at whole
  | ok v t =>
    rw [bind_ok evaluated, ← List.append_nil (sequenceCalls ev s.heap.next body _)]
    rw [evaluated] at whole
    refine whole.andThen ?_
    have known : undefinedIn s.heap.next exports t = .ok _ t := rfl
    rw [bind_ok known]
    split
    · rename_i none_missing
      have bound : ∀ x ∈ exports, (t.heap.bindings s.heap.next).binds x = true := by
        simpa using none_missing
      have declared : declare ⟨name, s.heap.next, exports⟩ t = .ok () _ := rfl
      rw [bind_ok declared]
      refine Course.andThen (.declare scope t ⟨name, s.heap.next, exports⟩ bound (allowed _)) ?_
      refine Follows.before (reads_exported _).follows (fun members => ?_) _
      refine (makeNameSpace_follows scope name members).before fun v => ?_
      exact (follows_define scope name v).before fun _ => follows_pure _
    · exact (reads_fail _).follows t

/-- A required file works in a scope of its own under the root. -/
theorem evalRequired_follows (l : Loader) (filename : String) (outer scope : FrameId) :
    (evalRequired ev l filename outer).Follows loader ev deeds scope
      (requiredCalls ev l filename outer) := by
  refine (reads_fromLoader _ _).bind_follows fun forms => ?_
  refine (reads_rootOf outer).bind_follows fun root => ?_
  exact follows_openScope fun inner => evalBody_follows inner _ forms

/-- A loaded file works in the scope that loads it. -/
theorem loaded_follows (l : Loader) (filename : String) (scope : FrameId) :
    (fromLoader filename (l.forms filename) >>= evalBody ev scope .nil).Follows loader ev deeds
      scope (.after (fromLoader filename (l.forms filename)) (sequenceCalls ev scope)) :=
  (reads_fromLoader filename (l.forms filename)).bind_follows (evalBody_follows scope .nil)

end Evaluation

namespace Action

variable {x : Action α} {scope : FrameId} {s t : State} {key : String} {p : Progress}

/-! ## Files in progress -/

theorem whileRequiring_begun (begun : s.progress.beginRequire key = .ok p) :
    whileRequiring key x s = ensuring x endRequire { s with progress := p } := by
  have started : beginRequire key s = .ok () { s with progress := p } := by
    simp only [beginRequire, begun]
  simp only [whileRequiring, bind, started]

theorem whileRequiring_circle {e : EvalError} (circle : s.progress.beginRequire key = .error e) :
    whileRequiring key x s = .error (.eval e) s := by
  have refused : beginRequire key s = .error (.eval e) s := by simp only [beginRequire, circle]
  simp only [whileRequiring, bind, refused]

/-- A require that comes to its end gives what was collected for it, and leaves what was in
progress as it found it. -/
theorem whileRequiring_ok {a : α} (begun : s.progress.beginRequire key = .ok p)
    (evolves : Evolves scope { s with progress := p } t)
    (done : x { s with progress := p } = .ok a t) :
    ∃ declared, t.progress.endRequire = .ok (declared, s.progress) ∧
      whileRequiring key x s = .ok (a, declared) { t with progress := s.progress } := by
  obtain ⟨declared, -, ended⟩ := Progress.endRequire_of_kept begun evolves.progress_kept
  refine ⟨declared, ended, ?_⟩
  simp only [whileRequiring_begun begun, ensuring, done, bind, pure, endRequire, ended]

theorem whileRequiring_error {e : Error} (begun : s.progress.beginRequire key = .ok p)
    (evolves : Evolves scope { s with progress := p } t)
    (failed : x { s with progress := p } = .error e t) :
    whileRequiring key x s = .error e { t with progress := s.progress } := by
  obtain ⟨declared, -, ended⟩ := Progress.endRequire_of_kept begun evolves.progress_kept
  simp only [whileRequiring_begun begun, ensuring, failed, bind, throw, endRequire, ended]

theorem whileRequiring_outOfFuel (begun : s.progress.beginRequire key = .ok p)
    (lacking : x { s with progress := p } = .outOfFuel) : whileRequiring key x s = .outOfFuel := by
  simp only [whileRequiring_begun begun, ensuring, lacking]

/-- The ways in which work on a file being loaded comes out. -/
inductive LoadCase (key : String) (x : Action α) (s : State) : Result α → Prop
  | circle {e : EvalError} (circular : s.progress.beginLoad key = .error e) :
    LoadCase key x s (.error (.eval e) s)
  | lacking {p : Progress} (begun : s.progress.beginLoad key = .ok p)
    (lacks : x { s with progress := p } = .outOfFuel) : LoadCase key x s .outOfFuel
  | failed {p q : Progress} {t : State} {e : Error} (begun : s.progress.beginLoad key = .ok p)
    (ended : x { s with progress := p } = .error e t) (restored : t.progress.endLoad = .ok q) :
    LoadCase key x s (.error e { t with progress := q })
  | done {p q : Progress} {t : State} {a : α} (begun : s.progress.beginLoad key = .ok p)
    (ended : x { s with progress := p } = .ok a t) (restored : t.progress.endLoad = .ok q) :
    LoadCase key x s (.ok a { t with progress := q })

theorem whileLoading_cases (within : x.Within scope) (s : State) :
    LoadCase key x s (whileLoading key x s) := by
  cases begun : s.progress.beginLoad key with
  | error e =>
    have refused : beginLoad key s = .error (.eval e) s := by simp only [beginLoad, begun]
    simp only [whileLoading, bind, refused]
    exact .circle begun
  | ok p =>
    have started : beginLoad key s = .ok () { s with progress := p } := by
      simp only [beginLoad, begun]
    simp only [whileLoading, bind, started, ensuring]
    cases ended : x { s with progress := p } with
    | outOfFuel => exact .lacking begun ended
    | ok a t =>
      have evolves := within _ t (ends_of_ok ended)
      obtain ⟨q, restored, -⟩ := Progress.endLoad_of_kept begun evolves.progress_kept
      simp only [endLoad, restored, pure]
      exact .done begun ended restored
    | error e t =>
      have evolves := within _ t (ends_of_error ended)
      obtain ⟨q, restored, -⟩ := Progress.endLoad_of_kept begun evolves.progress_kept
      simp only [endLoad, restored, throw]
      exact .failed begun ended restored

theorem follows_whileLoading {calls : Calls} (canonical : IsCanonical loader key)
    (follows : x.Follows loader ev deeds scope calls) (within : x.Within scope) :
    (whileLoading key x).Follows loader ev deeds scope
      (.after (beginLoad key) fun _ => calls) := by
  intro s
  have inner : ∀ {p}, s.progress.beginLoad key = .ok p →
      Calls.after (beginLoad key) (fun _ => calls) s = calls { s with progress := p } ∧
        Course loader ev deeds scope { s with progress := p } (calls { s with progress := p })
          (x { s with progress := p }).state? := by
    intro p begun
    have started : beginLoad key s = .ok () { s with progress := p } := by
      simp only [beginLoad, begun]
    exact ⟨Calls.after_ok started, follows _⟩
  have found : LoadCase key x s (whileLoading key x s) := whileLoading_cases within s
  generalize whileLoading key x s = r at found ⊢
  cases found with
  | @circle e circular =>
    have refused : beginLoad key s = .error (.eval e) s := by simp only [beginLoad, circular]
    simp only [Calls.after, Calls.andThen, refused, Calls.none]
    exact .stay scope s
  | lacking begun lacks =>
    obtain ⟨same, course⟩ := inner begun
    rw [lacks] at course
    rw [same]
    exact .stallInLoad canonical begun course
  | failed begun ended restored | done begun ended restored =>
    obtain ⟨same, course⟩ := inner begun
    rw [ended] at course
    rw [same]
    exact .load canonical begun course restored

end Action

namespace State

/-- The state in which the forms of a file are evaluated that is required in `scope`. -/
def openFile (s : State) (key : String) (scope : FrameId) : State where
  heap := s.heap.push (s.heap.innerFrame (s.heap.root scope))
  registry := s.registry
  progress := ⟨key :: s.progress.requiring, s.progress.loading, [] :: s.progress.collectors⟩
  fresh := s.fresh

theorem begin_eq_of_not_mem {s : State} {key : String} (unopened : key ∉ s.progress.requiring)
    (scope : FrameId) : s.progress.beginRequire key = .ok (s.openFile key scope).progress :=
  if_neg unopened

end State

namespace Evaluation

open ModularLisp.Action

/-- The call requires a file that is neither cached nor being required, the evaluation of all its
forms comes to an end with a value, and the modules `declared`, at least one, are declared for
it. -/
inductive Completes (loader : Option Loader) (ev : Evaluator) :
    Call → String → List Module → Prop
  | intro {l : Loader} {filename key : String} {visibility : Visibility} {scope : FrameId}
    {s t : State} {forms : List Expr} {v : Value} {declared : List Module}
    (given : loader = some l) (canonical : l.canonicalName filename = .ok key)
    (uncached : s.registry.files.find? key = none) (unopened : key ∉ s.progress.requiring)
    (served : l.forms filename = .ok forms)
    (evaluated : evalBody ev s.heap.next .nil forms (s.openFile key scope) = .ok v t)
    (collected : t.progress.collectors.head? = some declared) (some_declared : declared ≠ []) :
    Completes loader ev ⟨.requireDecl filename visibility, scope, s⟩ key declared

/-- What a call does itself: a module form declares its module, a `set` form sets a name, and a
require caches its file. -/
def deedsOf (loader : Option Loader) (ev : Evaluator) (c : Call) : Deeds where
  declares := fun m => ∃ body, c.expr = .moduleDecl m.name m.exports body
  sets := Sets ev c
  fills := Completes loader ev c

theorem evalRequired_eq {l : Loader} {filename : String} {forms : List Expr}
    (served : l.forms filename = .ok forms) (scope : FrameId) (s : State) :
    evalRequired ev l filename scope s = evalBody ev s.heap.next .nil forms
      { s with heap := s.heap.push (s.heap.innerFrame (s.heap.root scope)) } := by
  rw [evalRequired, served]
  rfl

theorem forms_of_evalRequired_ok {l : Loader} {filename : String} {scope : FrameId} {s t : State}
    {v : Value} (evaluated : evalRequired ev l filename scope s = .ok v t) :
    ∃ forms, l.forms filename = .ok forms := by
  obtain ⟨forms, u, read, -⟩ := bind_eq_ok evaluated
  cases served : l.forms filename with
  | ok forms => exact ⟨forms, rfl⟩
  | error failure =>
    rw [served] at read
    cases read

section Files

variable {l : Loader} {filename key : String} {scope : FrameId} {s : State}

theorem fromLoader_ok {α : Type} {r : Except LoadFailure α} {a : α} (served : r = .ok a)
    (filename : String) (s : State) : fromLoader filename r s = .ok a s := by
  rw [served]
  rfl

/-- The cache decides whether a file is evaluated. -/
theorem requiredModules_eq (canonical : l.canonicalName filename = .ok key) :
    requiredModules (some l) ev filename scope s =
      (match s.registry.files.find? key with
        | some ms => Pure.pure ms
        | none => whileRequiring key (evalRequired ev l filename scope) >>= fun r =>
          if r.2.isEmpty then fail (.noModuleDeclared filename)
          else cacheFile key r.2 >>= fun _ => Pure.pure r.2) s := by
  have loaded : theLoader (some l) filename s = .ok l s := rfl
  have looked : cached? key s = .ok (s.registry.files.find? key) s := rfl
  refine (bind_ok loaded).trans ?_
  refine (bind_ok (fromLoader_ok canonical filename s)).trans ?_
  exact bind_ok looked

theorem requireCalls_eq (canonical : l.canonicalName filename = .ok key) :
    requireCalls (some l) ev filename scope s =
      (match s.registry.files.find? key with
        | some _ => Calls.none
        | none => Calls.after (beginRequire key) fun _ => requiredCalls ev l filename scope) s := by
  have loaded : theLoader (some l) filename s = .ok l s := rfl
  have looked : cached? key s = .ok (s.registry.files.find? key) s := rfl
  refine (Calls.after_ok loaded).trans ?_
  refine (Calls.after_ok (fromLoader_ok canonical filename s)).trans ?_
  exact Calls.after_ok looked

/-- A loader that does not know the file makes the require fail at once. -/
theorem requiredModules_unknown {failure : LoadFailure}
    (unknown : l.canonicalName filename = .error failure) :
    requiredModules (some l) ev filename scope s = .error (failure.toError filename) s ∧
      requireCalls (some l) ev filename scope s = [] := by
  have loaded : theLoader (some l) filename s = .ok l s := rfl
  have failed : fromLoader filename (l.canonicalName filename) s =
      .error (failure.toError filename) s := by
    rw [unknown]
    rfl
  constructor
  · exact (bind_ok loaded).trans (bind_error failed)
  · refine (Calls.after_ok loaded).trans ?_
    simp only [Calls.after, Calls.andThen, failed, Calls.none]

variable (parts : ∀ e scope, (ev e scope).Within scope)

include parts

theorem evalBody_within (scope : FrameId) (last : Value) (es : List Expr) :
    (evalBody ev scope last es).Within scope := by
  have follows : (evalBody ev scope last es).Follows none ev Deeds.none scope
      (sequenceCalls ev scope es) := evalBody_follows scope last es
  exact follows.within parts

theorem evalRequired_within (l : Loader) (filename : String) (outer scope : FrameId) :
    (evalRequired ev l filename outer).Within scope := by
  have follows : (evalRequired ev l filename outer).Follows none ev Deeds.none scope
      (requiredCalls ev l filename outer) := evalRequired_follows l filename outer scope
  exact follows.within parts

omit parts in
theorem completes_of_ok (canonical : l.canonicalName filename = .ok key)
    (uncached : s.registry.files.find? key = none) {p q : Progress}
    (begun : s.progress.beginRequire key = .ok p) {v : Value} {t : State}
    (evaluated : evalRequired ev l filename scope { s with progress := p } = .ok v t)
    {declared : List Module} (ended : t.progress.endRequire = .ok (declared, q))
    (some_declared : declared ≠ []) {visibility : Visibility} :
    Completes (some l) ev ⟨.requireDecl filename visibility, scope, s⟩ key declared := by
  obtain ⟨unopened, rfl⟩ := Progress.beginRequire_ok begun
  obtain ⟨forms, served⟩ := forms_of_evalRequired_ok evaluated
  rw [evalRequired_eq served] at evaluated
  have collected : t.progress.collectors.head? = some declared := by
    rw [Progress.endRequire_ok ended]
    rfl
  exact .intro rfl canonical uncached unopened served evaluated collected some_declared

/-- The ways in which a file's modules are found, or are not. -/
inductive RequireCase (ev : Evaluator) (l : Loader) (filename key : String) (scope : FrameId)
    (s : State) : Result (List Module) → Prop
  | cached {ms : List Module} (found : s.registry.files.find? key = some ms) :
    RequireCase ev l filename key scope s (.ok ms s)
  | circle {e : EvalError} (uncached : s.registry.files.find? key = none)
    (circular : s.progress.beginRequire key = .error e) :
    RequireCase ev l filename key scope s (.error (.eval e) s)
  | lacking {p : Progress} (uncached : s.registry.files.find? key = none)
    (begun : s.progress.beginRequire key = .ok p)
    (lacks : evalRequired ev l filename scope { s with progress := p } = .outOfFuel) :
    RequireCase ev l filename key scope s .outOfFuel
  | failed {p : Progress} {t : State} {e : Error} {declared : List Module}
    (uncached : s.registry.files.find? key = none) (begun : s.progress.beginRequire key = .ok p)
    (ended : evalRequired ev l filename scope { s with progress := p } = .error e t)
    (restored : t.progress.endRequire = .ok (declared, s.progress)) :
    RequireCase ev l filename key scope s (.error e { t with progress := s.progress })
  | undeclared {p : Progress} {t : State} {v : Value}
    (uncached : s.registry.files.find? key = none) (begun : s.progress.beginRequire key = .ok p)
    (ended : evalRequired ev l filename scope { s with progress := p } = .ok v t)
    (restored : t.progress.endRequire = .ok ([], s.progress)) :
    RequireCase ev l filename key scope s
      (.error (.eval (.noModuleDeclared filename)) { t with progress := s.progress })
  | declared {p : Progress} {t : State} {v : Value} {declared : List Module}
    (uncached : s.registry.files.find? key = none) (begun : s.progress.beginRequire key = .ok p)
    (ended : evalRequired ev l filename scope { s with progress := p } = .ok v t)
    (restored : t.progress.endRequire = .ok (declared, s.progress))
    (some_declared : declared ≠ []) :
    RequireCase ev l filename key scope s (.ok declared
      { t with progress := s.progress, registry := t.registry.cacheFile key declared })

theorem requiredModules_cases (canonical : l.canonicalName filename = .ok key) (scope : FrameId)
    (s : State) : RequireCase ev l filename key scope s
      (requiredModules (some l) ev filename scope s) := by
  rw [requiredModules_eq canonical]
  cases uncached : s.registry.files.find? key with
  | some ms => exact .cached uncached
  | none =>
    dsimp only
    cases begun : s.progress.beginRequire key with
    | error e =>
      rw [bind_error (whileRequiring_circle begun)]
      exact .circle uncached begun
    | ok p =>
      have within := evalRequired_within parts l filename scope scope { s with progress := p }
      cases ended : evalRequired ev l filename scope { s with progress := p } with
      | outOfFuel =>
        rw [bind_outOfFuel (whileRequiring_outOfFuel begun ended)]
        exact .lacking uncached begun ended
      | error e t =>
        have evolves := within t (ends_of_error ended)
        obtain ⟨declared, -, restored⟩ := Progress.endRequire_of_kept begun evolves.progress_kept
        rw [bind_error (whileRequiring_error begun evolves ended)]
        exact .failed uncached begun ended restored
      | ok v t =>
        obtain ⟨declared, restored, done⟩ :=
          whileRequiring_ok begun (within t (ends_of_ok ended)) ended
        rw [bind_ok done]
        cases declared with
        | nil => exact .undeclared uncached begun ended restored
        | cons m rest =>
          have case := RequireCase.declared uncached begun ended restored (List.cons_ne_nil m rest)
          exact case

omit parts in
theorem requireCalls_begun (canonical : l.canonicalName filename = .ok key)
    (uncached : s.registry.files.find? key = none) {p : Progress}
    (begun : s.progress.beginRequire key = .ok p) : requireCalls (some l) ev filename scope s =
      requiredCalls ev l filename scope { s with progress := p } := by
  have started : beginRequire key s = .ok () { s with progress := p } := by
    simp only [beginRequire, begun]
  rw [requireCalls_eq canonical, uncached]
  exact Calls.after_ok started

/-- A file is cached when its forms have been evaluated and have declared a module. -/
theorem requiredModules_follows (loader : Option Loader) (filename : String)
    (visibility : Visibility) (scope : FrameId) (s : State) :
    Course loader ev (deedsOf loader ev ⟨.requireDecl filename visibility, scope, s⟩) scope s
      (requireCalls loader ev filename scope s)
      (requiredModules loader ev filename scope s).state? := by
  cases loader with
  | none => exact .stay scope s
  | some l =>
    cases canonical : l.canonicalName filename with
    | error failure =>
      rw [(requiredModules_unknown canonical).1, (requiredModules_unknown canonical).2]
      exact .stay scope s
    | ok key =>
      have named : IsCanonical (some l) key := ⟨l, filename, rfl, canonical⟩
      have inner : (evalRequired ev l filename scope).Follows (some l) ev
          (deedsOf (some l) ev ⟨.requireDecl filename visibility, scope, s⟩) scope
          (requiredCalls ev l filename scope) := evalRequired_follows l filename scope scope
      have found := requiredModules_cases parts canonical scope s
      generalize requiredModules (some l) ev filename scope s = r at found ⊢
      cases found with
      | cached found =>
        rw [requireCalls_eq canonical, found]
        exact .stay scope s
      | @circle e uncached circular =>
        have refused : beginRequire key s = .error (.eval e) s := by
          simp only [beginRequire, circular]
        rw [requireCalls_eq canonical, uncached]
        simp only [Calls.after, Calls.andThen, refused, Calls.none]
        exact .stay scope s
      | @lacking p uncached begun lacks =>
        have course := inner { s with progress := p }
        rw [lacks] at course
        rw [requireCalls_begun canonical uncached begun]
        exact .stallInRequire named uncached begun course
      | @failed p _ _ _ uncached begun ended restored
      | @undeclared p _ _ uncached begun ended restored =>
        have course := inner { s with progress := p }
        rw [ended] at course
        rw [requireCalls_begun canonical uncached begun]
        refine .require named uncached begun course restored .dropped fun changed => ?_
        exact absurd rfl changed
      | @declared p _ _ _ uncached begun ended restored some_declared =>
        have course := inner { s with progress := p }
        rw [ended] at course
        rw [requireCalls_begun canonical uncached begun]
        exact .require named uncached begun course restored (.cached some_declared) fun _ =>
          completes_of_ok canonical uncached begun ended restored some_declared

theorem requiredModules_within (loader : Option Loader) (filename : String) (scope : FrameId) :
    (requiredModules loader ev filename scope).Within scope :=
  fun s _ ended =>
    (requiredModules_follows parts loader filename .all scope s).evolves parts ended

theorem evalRequire_follows (loader : Option Loader) (filename : String)
    (visibility : Visibility) (scope : FrameId) (s : State) :
    Course loader ev (deedsOf loader ev ⟨.requireDecl filename visibility, scope, s⟩) scope s
      (requireCalls loader ev filename scope s)
      (evalRequire loader ev filename visibility scope s).state? :=
  course_before (requiredModules_follows parts loader filename visibility scope s) fun ms t _ =>
    shareExports_follows filename visibility ms scope t

theorem loaded_within (l : Loader) (filename : String) (scope : FrameId) :
    (fromLoader filename (l.forms filename) >>= evalBody ev scope .nil).Within scope := by
  have follows : (fromLoader filename (l.forms filename) >>= evalBody ev scope .nil).Follows none ev
      Deeds.none scope _ := loaded_follows l filename scope
  exact follows.within parts

theorem evalLoad_follows (loader : Option Loader) (filename : String) (scope : FrameId) :
    (evalLoad loader ev filename scope).Follows loader ev deeds scope
      (loadCalls loader ev filename scope) := by
  intro s
  cases loader with
  | none => exact .stay scope s
  | some l =>
    have loaded : theLoader (some l) filename s = .ok l s := rfl
    rw [evalLoad, bind_ok loaded, loadCalls, Calls.after_ok loaded]
    cases canonical : l.canonicalName filename with
    | error failure => exact .stay scope s
    | ok key =>
      have within := loaded_within parts l filename scope
      exact follows_whileLoading ⟨l, filename, rfl, canonical⟩ (loaded_follows l filename scope)
        within s

/-- A step follows a course that does itself only what its expression says. -/
theorem step_follows (loader : Option Loader) (e : Expr) (scope : FrameId) (s : State) :
    Course loader ev (deedsOf loader ev ⟨e, scope, s⟩) scope s
      (stepCalls loader ev e scope s) (step loader ev e scope s).state? := by
  match e with
  | .bracket elements =>
    exact (evalAll_follows scope elements).before (fun vs => follows_pure _) s
  | .list (head :: arguments) =>
    simp only [step, stepCalls]
    cases special : head.symbolName?.bind SpecialForm.ofName? with
    | some form =>
      by_cases set : form = .set
      · obtain ⟨name, symbol, named⟩ := Option.bind_eq_some_iff.mp special
        obtain rfl := Expr.symbolName?_eq_some.mp symbol
        obtain rfl := SpecialForm.ofName?_set (set ▸ named)
        subst set
        exact evalSet_follows scope s arguments fun i name sets => sets
      · exact evalForm_follows set arguments scope s
    | none => exact evalCall_follows scope head arguments s
  | .moduleDecl name exports body =>
    have allowed (i : FrameId) :
        (deedsOf loader ev ⟨.moduleDecl name exports body, scope, s⟩).declares ⟨name, i, exports⟩ :=
      ⟨body, rfl⟩
    exact evalModule_follows body scope allowed s
  | .requireDecl filename visibility =>
    exact evalRequire_follows parts loader filename visibility scope s
  | .loadDecl filename => exact evalLoad_follows parts loader filename scope s
  | .importDecl name => exact evalImport_follows name scope s
  | .bigNumber text => exact (reads_guarded _).follows.before (fun n => follows_pure _) s
  | .symbol name => exact (reads_lookup scope name).follows s
  | .number _ | .string _ | .boolean _ | .keyword _ | .list [] => exact .stay scope s

end Files

/-- Whatever an expression does, its evaluation evolves the state in its own scope. -/
theorem eval_within (loader : Option Loader) (fuel : Nat) (e : Expr) (scope : FrameId) :
    (eval loader fuel e scope).Within scope := by
  induction fuel generalizing e scope with
  | zero => intro s t h; cases h
  | succ fuel ih => exact fun s t ended => (step_follows ih loader e scope s).evolves ih ended

/-- Forms one after the other cache nothing besides what their evaluations cache. -/
theorem evalForms_follows (loader : Option Loader) (fuel : Nat) (scope : FrameId)
    (forms : List Expr) : (evalForms loader fuel scope forms).Follows loader (eval loader fuel)
      Deeds.none scope (sequenceCalls (eval loader fuel) scope forms) :=
  evalBody_follows scope .nil forms

theorem evalForms_within (loader : Option Loader) (fuel : Nat) (scope : FrameId)
    (forms : List Expr) : (evalForms loader fuel scope forms).Within scope :=
  (evalForms_follows loader fuel scope forms).within (eval_within loader fuel)

end Evaluation

end ModularLisp
