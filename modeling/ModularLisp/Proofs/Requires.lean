import ModularLisp.Proofs.Calls
import ModularLisp.Proofs.Modules

/-!
# What module, import and require forms do

One lemma for each way in which these forms come to an end: a module that defines what it exports,
an import of a bound module, and the require of a file that is cached, that is in progress already,
that fails, or that is evaluated. A cached file makes no further calls.
-/

namespace ModularLisp

def Heap.bindAll (h : Heap) (i : FrameId) (entries : List (String × Value)) : Heap :=
  entries.foldl (fun h entry => h.bind i entry.1 entry.2) h

namespace Heap

theorem bindings_bindAll {h : Heap} {i : FrameId} (old : i < h.next)
    (entries : List (String × Value)) :
    (h.bindAll i entries).bindings i = (h.bindings i).insertAll entries := by
  induction entries generalizing h with
  | nil => rfl
  | cons entry rest ih =>
    have still : i < (h.bind i entry.1 entry.2).next := by rwa [next_bind]
    refine (ih still).trans ?_
    rw [bindings_bind_self old]
    rfl

end Heap

theorem Action.defineAll_ok {entries : List (String × Value)}
    (nonempty : ∀ entry ∈ entries, entry.1 ≠ "") (scope : FrameId) (s : State) :
    defineAll scope entries s = .ok () { s with heap := s.heap.bindAll scope entries } := by
  induction entries generalizing s with
  | nil => rfl
  | cons entry rest ih =>
    have named : (Label.text entry.1).name? = some entry.1 :=
      if_neg (nonempty entry List.mem_cons_self)
    have defined : define scope (.text entry.1) entry.2 s =
        .ok () { s with heap := s.heap.bind scope entry.1 entry.2 } := by
      simp only [define, named, bindIn]
    have later := ih (fun x member => nonempty x (List.mem_cons_of_mem entry member))
      { s with heap := s.heap.bind scope entry.1 entry.2 }
    simp only [defineAll, Action.bind, defined]
    exact later

namespace Action

variable {s t : State}

theorem define_eq_ok {scope : FrameId} {name : String} {v : Value}
    (done : define scope (.text name) v s = .ok () t) :
    name ≠ "" ∧ t = { s with heap := s.heap.bind scope name v } := by
  rw [define] at done
  cases labelled : (Label.text name).name? with
  | none =>
    rw [labelled] at done
    cases done
  | some found =>
    obtain ⟨rfl, nonempty⟩ := Label.name?_text labelled
    rw [labelled] at done
    cases done
    exact ⟨nonempty, rfl⟩

theorem exported_eq_ok {ms : List Module} {members : Bindings Value} :
    exported ms s = .ok members t ↔ Module.exportedByAll ms s.heap = .ok members ∧ t = s := by
  simp only [exported]
  constructor
  · intro done
    split at done
    · rename_i found
      cases done
      exact ⟨found, rfl⟩
    · cases done
  · rintro ⟨found, rfl⟩
    simp only [found]

end Action

namespace Evaluation

open ModularLisp.Action

variable {ev : Evaluator}

theorem evalBody_append (scope : FrameId) (last : Value) (es fs : List Expr) :
    evalBody ev scope last (es ++ fs) = evalBody ev scope last es >>= fun v =>
      evalBody ev scope v fs := by
  induction es generalizing last with
  | nil => rfl
  | cons e rest ih =>
    simp only [List.cons_append, evalBody, ih]
    exact (bind_assoc _ _ _).symm

/-- An import binds every exported name to its current value in the module's own frame. -/
theorem evalImport_ok {s : State} {name : String} {m : Module}
    (registered : s.registry.modules.find? name = some m) (bound : m.Bound s.heap)
    (scope : FrameId) : ∃ t, evalImport name scope s = .ok .nil t ∧
      (scope < s.heap.next → ∀ x ∈ m.exports,
        (t.heap.bindings scope).find? x = (s.heap.bindings m.scope).find? x) := by
  have all : ∀ x ∈ [m], x.Bound s.heap := fun x member => List.mem_singleton.mp member ▸ bound
  obtain ⟨members, exported, distinct, finds⟩ := Module.exportedByAll_of_bound all
  have nonempty := Module.nonempty_of_mem_exported all exported
  refine ⟨{ s with heap := s.heap.bindAll scope members.entries }, ?_, fun old x listed => ?_⟩
  · have found : registered? name s = .ok (some m) s := by
      simp only [registered?, registered]
    have read : Action.exported [m] s = .ok members s := exported_eq_ok.mpr ⟨exported, rfl⟩
    rw [evalImport, bind_ok found]
    dsimp only
    rw [bind_ok read, bind_ok (defineAll_ok nonempty scope s)]
    rfl
  · rw [Heap.bindings_bindAll old, Bindings.find?_insertAll _ distinct]
    obtain ⟨v, hv⟩ := Option.isSome_iff_exists.mp (bound x listed).2
    have own : Bindings.findIn x members.entries = some v := by
      refine (finds x).trans ?_
      simp [listed, hv]
    rw [own, hv]
    rfl

/-- A module whose own frame binds its exports is registered and counted. -/
theorem evalModule_ok {name : String} {exports : List String} {body : List Expr} {scope : FrameId}
    {s t : State} {v : Value} (nonempty : name ≠ "")
    (evaluated : evalBody ev s.heap.next .nil body
      { s with heap := s.heap.push (s.heap.innerFrame scope) } = .ok v t)
    (bound : Module.Bound ⟨name, s.heap.next, exports⟩ t.heap) :
    ∃ u, evalModule ev name exports body scope s = .ok .nil u ∧
      u.registry = t.registry.register ⟨name, s.heap.next, exports⟩ ∧
      u.progress = t.progress.collect ⟨name, s.heap.next, exports⟩ := by
  have known : undefinedIn s.heap.next exports t = .ok [] t := by
    have none : exports.filter (fun x => !(t.heap.bindings s.heap.next).binds x) = [] :=
      List.filter_eq_nil_iff.mpr fun x listed => by simp [(bound x listed).2]
    simp only [undefinedIn, none]
  let m : Module := ⟨name, s.heap.next, exports⟩
  have all : ∀ x ∈ [m], x.Bound t.heap := fun x member => List.mem_singleton.mp member ▸ bound
  obtain ⟨members, exported, -⟩ := Module.exportedByAll_of_bound all
  let t₁ : State := { t with registry := t.registry.register m, progress := t.progress.collect m }
  let t₂ : State := { t₁ with fresh := t.fresh + 1 }
  let v : Value := .nameSpace t.fresh name members
  let u : State := { t₂ with heap := t.heap.bind scope name v }
  have declared : declare m t = .ok () t₁ := rfl
  have read : Action.exported [m] t₁ = .ok members t₁ := exported_eq_ok.mpr ⟨exported, rfl⟩
  have made : makeNameSpace name members t₁ = .ok v t₂ := rfl
  have defined : define scope (.text name) v t₂ = .ok () u := by
    have named : (Label.text name).name? = some name := if_neg nonempty
    simp only [define, named]
    rfl
  refine ⟨u, ?_, rfl, rfl⟩
  rw [evalModule, bind_ok (openScope_eq scope s), bind_ok evaluated, bind_ok known,
    if_pos List.isEmpty_nil, bind_ok declared, bind_ok read, bind_ok made, bind_ok defined]
  rfl

/-- What a module form leaves when it has come to a value. -/
inductive ModuleCase (ev : Evaluator) (name : String) (exports : List String) (body : List Expr)
    (scope : FrameId) (s : State) : Result Value → Prop
  | intro {v : Value} {t : State} {members : Bindings Value}
    (evaluated : evalBody ev s.heap.next .nil body
      { s with heap := s.heap.push (s.heap.innerFrame scope) } = .ok v t)
    (defined : ∀ x ∈ exports, (t.heap.bindings s.heap.next).binds x = true)
    (exported : Module.exportedByAll [⟨name, s.heap.next, exports⟩] t.heap = .ok members)
    (nonempty : name ≠ "") :
    ModuleCase ev name exports body scope s (.ok .nil
      { heap := t.heap.bind scope name (.nameSpace t.fresh name members)
        registry := t.registry.register ⟨name, s.heap.next, exports⟩
        progress := t.progress.collect ⟨name, s.heap.next, exports⟩
        fresh := t.fresh + 1 })

theorem evalModule_cases {name : String} {exports : List String} {body : List Expr}
    {scope : FrameId} {s u : State} {w : Value}
    (done : evalModule ev name exports body scope s = .ok w u) :
    ModuleCase ev name exports body scope s (.ok w u) := by
  rw [evalModule, bind_ok (openScope_eq scope s)] at done
  obtain ⟨v, t, evaluated, done⟩ := bind_eq_ok done
  have known : undefinedIn s.heap.next exports t = .ok _ t := rfl
  rw [bind_ok known] at done
  split at done
  · rename_i none_missing
    have defined : ∀ x ∈ exports, (t.heap.bindings s.heap.next).binds x = true := by
      simpa using none_missing
    obtain ⟨_, t₁, declared, done⟩ := bind_eq_ok done
    cases declared
    obtain ⟨members, t₂, read, done⟩ := bind_eq_ok done
    obtain ⟨exported, rfl⟩ := exported_eq_ok.mp read
    obtain ⟨space, t₃, made, done⟩ := bind_eq_ok done
    cases made
    obtain ⟨_, t₄, bound, done⟩ := bind_eq_ok done
    obtain ⟨nonempty, rfl⟩ := define_eq_ok bound
    cases done
    exact .intro evaluated defined exported nonempty
  · cases done

end Evaluation

namespace State

variable {s : State} {key : String}

theorem Sound.openFile (sound : s.Sound) (unopened : key ∉ s.progress.requiring)
    (scope : FrameId) : (s.openFile key scope).Sound := by
  have opened := (sound.beginRequire (begin_eq_of_not_mem unopened scope)).push
    (f := s.heap.innerFrame (s.heap.root scope)) rfl
  exact opened

end State

namespace Evaluation

open ModularLisp.Action

section Files

variable {ev : Evaluator} {l : Loader} {filename key : String} {scope : FrameId} {s : State}

theorem requiredModules_cached (canonical : l.canonicalName filename = .ok key)
    {ms : List Module} (cached : s.registry.files.find? key = some ms) :
    requiredModules (some l) ev filename scope s = .ok ms s := by
  rw [requiredModules_eq canonical, cached]
  rfl

/-- The forms of a cached file are not evaluated again. -/
theorem requireCalls_cached (canonical : l.canonicalName filename = .ok key)
    {ms : List Module} (cached : s.registry.files.find? key = some ms) :
    requireCalls (some l) ev filename scope s = [] := by
  rw [requireCalls_eq canonical, cached]
  rfl

/-- A file that is being required already closes a circle. -/
theorem requiredModules_circle (canonical : l.canonicalName filename = .ok key)
    (uncached : s.registry.files.find? key = none) (opened : key ∈ s.progress.requiring) :
    requiredModules (some l) ev filename scope s =
      .error (.eval (.circularRequire (Progress.circle s.progress.requiring key))) s := by
  have circle : s.progress.beginRequire key =
      .error (.circularRequire (Progress.circle s.progress.requiring key)) := if_pos opened
  rw [requiredModules_eq canonical, uncached]
  exact bind_error (whileRequiring_circle circle)

/-- A file that is not cached has its forms evaluated in a state of its own. -/
theorem requireCalls_uncached (canonical : l.canonicalName filename = .ok key)
    (uncached : s.registry.files.find? key = none) (unopened : key ∉ s.progress.requiring)
    {forms : List Expr} (served : l.forms filename = .ok forms) :
    requireCalls (some l) ev filename scope s =
      sequenceCalls ev s.heap.next forms (s.openFile key scope) := by
  have begun : beginRequire key s =
      .ok () { s with progress := (s.openFile key scope).progress } := by
    simp only [beginRequire, State.begin_eq_of_not_mem unopened scope]
  rw [requireCalls_eq canonical, uncached]
  dsimp only
  rw [Calls.after_ok begun, requiredCalls, served]
  rfl

variable (parts : ∀ e scope, (ev e scope).Within scope)

include parts

/-- A first require caches what its file declares. -/
theorem requiredModules_ok (canonical : l.canonicalName filename = .ok key)
    (uncached : s.registry.files.find? key = none) (unopened : key ∉ s.progress.requiring)
    {forms : List Expr} (served : l.forms filename = .ok forms) {v : Value} {t : State}
    (evaluated : evalBody ev s.heap.next .nil forms (s.openFile key scope) = .ok v t)
    {declared : List Module} (collected : t.progress.collectors.head? = some declared)
    (some_declared : declared ≠ []) :
    requiredModules (some l) ev filename scope s = .ok declared
      { t with progress := s.progress, registry := t.registry.cacheFile key declared } := by
  have begun := State.begin_eq_of_not_mem unopened scope
  have done : evalRequired ev l filename scope
      { s with progress := (s.openFile key scope).progress } = .ok v t :=
    (evalRequired_eq served scope _).trans evaluated
  have evolves := evalRequired_within parts l filename scope scope _ t (ends_of_ok done)
  obtain ⟨declared', ended, whole⟩ := whileRequiring_ok begun evolves done
  obtain rfl : declared = declared' := by
    rw [Progress.endRequire_ok ended] at collected
    exact (Option.some.inj collected).symm
  have filled : declared.isEmpty = false := by simpa using some_declared
  rw [requiredModules_eq canonical, uncached]
  refine (bind_ok whole).trans ?_
  simp only [filled]
  rfl

theorem requiredModules_error (canonical : l.canonicalName filename = .ok key)
    (uncached : s.registry.files.find? key = none) (unopened : key ∉ s.progress.requiring)
    {forms : List Expr} (served : l.forms filename = .ok forms) {e : Error} {t : State}
    (failed : evalBody ev s.heap.next .nil forms (s.openFile key scope) = .error e t) :
    requiredModules (some l) ev filename scope s = .error e { t with progress := s.progress } := by
  have begun := State.begin_eq_of_not_mem unopened scope
  have stopped : evalRequired ev l filename scope
      { s with progress := (s.openFile key scope).progress } = .error e t :=
    (evalRequired_eq served scope _).trans failed
  have evolves := evalRequired_within parts l filename scope scope _ t (ends_of_error stopped)
  rw [requiredModules_eq canonical, uncached]
  exact bind_error (whileRequiring_error begun evolves stopped)

end Files

/-- A plain require of modules that are bound makes all of their exports visible. -/
theorem evalRequire_all_ok {ev : Evaluator} {loader : Option Loader} {filename : String}
    {scope : FrameId} {s t : State} {ms : List Module}
    (found : requiredModules loader ev filename scope s = .ok ms t)
    (bound : ∀ m ∈ ms, m.Bound t.heap) : ∃ exports, Module.exportedByAll ms t.heap = .ok exports ∧
      evalRequire loader ev filename .all scope s =
        .ok .nil { t with heap := t.heap.bindAll scope exports.entries } := by
  obtain ⟨exports, exported, -⟩ := Module.exportedByAll_of_bound bound
  have nonempty := Module.nonempty_of_mem_exported bound exported
  have read : Action.exported ms t = .ok exports t := exported_eq_ok.mpr ⟨exported, rfl⟩
  refine ⟨exports, exported, ?_⟩
  rw [evalRequire, bind_ok found, bind_ok read]
  exact bind_ok (defineAll_ok nonempty scope t)

end Evaluation

end ModularLisp
