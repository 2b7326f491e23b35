import Mathlib.Data.List.Nodup
import ModularLisp.Proofs.FileCache

/-!
# Whose modules

The modules of a file are those whose forms complete while it is the innermost file being required.
Beside each file on the stack stands a collector, and evaluation keeps the two in step: what is
declared goes to the innermost collector, and a require inside takes its own collector away again.
So the account of an evaluation that gives a value follows from the accounts of its calls. Each
module form opens a frame of its own, so no two completions are of the same module.
-/

namespace ModularLisp

/-- A module whose form has completed, and the files that were being required then, innermost
first. -/
structure Completion where
  module : Module
  requiring : List String
  deriving DecidableEq, Repr

/-- The modules whose forms completed while `key` was the innermost file being required. -/
def declaredFor (key : String) (ds : List Completion) : List Module :=
  (ds.filter fun d => d.requiring.head? = some key).map (·.module)

namespace Evaluation

/-- The completion of a call's own form, if that is a module form and gives a value. -/
def ownCompletion (ev : Evaluator) (c : Call) : List Completion :=
  match c.expr, c.answer ev with
  | .moduleDecl name exports _, .ok _ t =>
    [⟨⟨name, c.state.heap.next, exports⟩, t.progress.requiring⟩]
  | _, _ => []

/-- The module forms that complete in an evaluation, in the order in which they do. -/
def completions (loader : Option Loader) : (fuel : Nat) → Call → List Completion
  | 0, _ => []
  | fuel + 1, c =>
    (stepCalls loader (eval loader fuel) c.expr c.scope c.state).flatMap
      (completions loader fuel) ++ ownCompletion (eval loader (fuel + 1)) c

/-- The module forms that complete in the evaluation of forms one after the other. -/
def completionsOfForms (loader : Option Loader) (fuel : Nat) (scope : FrameId)
    (forms : List Expr) (s : State) : List Completion :=
  (sequenceCalls (eval loader fuel) scope forms s).flatMap (completions loader fuel)

theorem ownCompletion_cases (ev : Evaluator) (c : Call) : ownCompletion ev c = [] ∨
    ∃ name exports body v t, c.expr = .moduleDecl name exports body ∧ c.answer ev = .ok v t ∧
      ownCompletion ev c = [⟨⟨name, c.state.heap.next, exports⟩, t.progress.requiring⟩] := by
  simp only [ownCompletion]
  split
  · rename_i name exports body v t form done
    exact Or.inr ⟨name, exports, body, v, t, form, done, rfl⟩
  · exact Or.inl rfl

/-- A module form makes the calls of its body, which is evaluated in a new frame. -/
theorem moduleBody_course (loader : Option Loader) (ev : Evaluator) (body : List Expr)
    (scope : FrameId) (s : State) : Course loader ev .none s.heap.next
      { s with heap := s.heap.push (s.heap.innerFrame scope) } (moduleCalls ev body scope s)
      (evalBody ev s.heap.next .nil body
        { s with heap := s.heap.push (s.heap.innerFrame scope) }).state? := by
  rw [moduleCalls, Calls.after_ok (Action.openScope_eq scope s)]
  exact evalBody_follows _ _ _ _

end Evaluation

/-! ## A frame for each completion -/

/-- The completions between two states are of modules with different frames, all of them opened in
between. -/
structure Spread (s : State) (ds : List Completion) (t : State) : Prop where
  next : s.heap.next ≤ t.heap.next
  opened : ∀ d ∈ ds, s.heap.next ≤ d.module.scope ∧ d.module.scope < t.heap.next
  apart : ds.Pairwise fun d e => d.module.scope ≠ e.module.scope

namespace Spread

variable {r s t u : State} {ds es : List Completion}

theorem nil (next : s.heap.next ≤ t.heap.next) : Spread s [] t := ⟨next, nofun, .nil⟩

theorem append (first : Spread s ds t) (later : Spread t es u) : Spread s (ds ++ es) u where
  next := Nat.le_trans first.next later.next
  opened := by
    intro d member
    rcases List.mem_append.mp member with before | after
    · obtain ⟨low, high⟩ := first.opened d before
      exact ⟨low, Nat.lt_of_lt_of_le high later.next⟩
    · obtain ⟨low, high⟩ := later.opened d after
      exact ⟨Nat.le_trans first.next low, high⟩
  apart := by
    refine List.pairwise_append.mpr ⟨first.apart, later.apart, fun d before e after => ?_⟩
    exact Nat.ne_of_lt (Nat.lt_of_lt_of_le (first.opened d before).2 (later.opened e after).1)

theorem widen (h : Spread s ds t) (before : r.heap.next ≤ s.heap.next)
    (after : t.heap.next ≤ u.heap.next) : Spread r ds u := by
  have whole := ((nil before).append h).append (nil after)
  rwa [List.nil_append, List.append_nil] at whole

/-- Completions of one module are one completion. -/
theorem eq_of_module (h : Spread s ds t) {d e : Completion} (first : d ∈ ds) (second : e ∈ ds)
    (same : d.module = e.module) : d = e :=
  List.inj_on_of_nodup_map (List.pairwise_map.mpr h.apart) first second
    (congrArg (·.scope) same)

end Spread

section Courses

variable {loader : Option Loader} {ev : Evaluator} {deeds : Deeds} {scope : FrameId} {s t : State}
  {cs : List Call} {r : Option State} {listed : Call → List Completion}

theorem Course.spread (h : Course loader ev deeds scope s cs r)
    (inner : ∀ c ∈ cs, ∀ u, (ev c.expr c.scope).Ends c.state u → Spread c.state (listed c) u)
    (ended : r = some t) : Spread s (cs.flatMap listed) t := by
  induction h generalizing t with
  | stay | stamp | declare =>
    cases ended
    exact .nil (Nat.le_refl _)
  | define | set =>
    cases ended
    exact .nil (Nat.le_of_eq (Heap.next_bind ..).symm)
  | stall | stallInRequire | stallInLoad => cases ended
  | andThen _ _ ih₁ ih₂ =>
    rw [List.flatMap_append]
    obtain ⟨before, after⟩ := List.forall_mem_append.mp inner
    exact (ih₁ before rfl).append (ih₂ after ended)
  | call e scope s =>
    rw [List.flatMap_singleton]
    exact inner _ List.mem_cons_self t ended
  | @inside scope s _ _ f named _ ih =>
    refine (ih inner ended).widen ?_ (Nat.le_refl _)
    rw [Heap.next_push]
    exact Nat.le_succ _
  | require _ _ _ _ _ _ _ ih | load _ _ _ _ ih =>
    cases ended
    have between := ih inner rfl
    exact ⟨between.next, between.opened, between.apart⟩

end Courses

/-! ## The account of a collector -/

/-- Between the two states the completions `ds` have happened, those without another require around
them have been collected at the end of the innermost collector, and nothing else has. -/
structure Accounts (s : State) (ds : List Completion) (t : State) : Prop where
  within : ∀ d ∈ ds, ∃ opened, d.requiring = opened ++ s.progress.requiring ∧
    ∀ key ∈ opened, key ∉ s.progress.requiring
  requiring : t.progress.requiring = s.progress.requiring
  collectors : t.progress.collectors = s.progress.collectors.modifyHead
    (· ++ (ds.filter fun d => d.requiring = s.progress.requiring).map (·.module))

namespace Accounts

variable {s t u : State} {ds es : List Completion} {key : String} {p q : Progress}

theorem nil (same : t.progress = s.progress) : Accounts s [] t where
  within := nofun
  requiring := by rw [same]
  collectors := by cases collected : s.progress.collectors <;> simp [same, collected]

theorem append (first : Accounts s ds t) (later : Accounts t es u) : Accounts s (ds ++ es) u where
  within := by
    have after := later.within
    rw [first.requiring] at after
    exact List.forall_mem_append.mpr ⟨first.within, after⟩
  requiring := later.requiring.trans first.requiring
  collectors := by
    rw [later.collectors, first.collectors, first.requiring]
    cases s.progress.collectors <;> simp

/-- Only what is in progress counts. -/
theorem of_progress (h : Accounts s ds t) {s' t' : State} (begun : s'.progress = s.progress)
    (ended : t'.progress = t.progress) : Accounts s' ds t' := by
  have whole := ((nil begun.symm).append h).append (nil ended)
  rwa [List.nil_append, List.append_nil] at whole

theorem declare (s : State) (m : Module) :
    Accounts s [⟨m, s.progress.requiring⟩] { s with progress := s.progress.collect m } where
  within := by
    intro d member
    rw [List.mem_singleton.mp member]
    exact ⟨[], rfl, nofun⟩
  requiring := (Progress.kept_collect s.progress m).requiring
  collectors := by
    obtain ⟨heap, registry, ⟨requiring, loading, collectors⟩, fresh⟩ := s
    cases collectors <;> simp [Progress.collect]

/-- What completes while a file is being required is declared for the file if and only if no other
require stands between. -/
theorem declaredFor_eq
    (within : ∀ d ∈ ds, ∃ opened, d.requiring = opened ++ key :: s.progress.requiring ∧
      ∀ k ∈ opened, k ∉ key :: s.progress.requiring) :
    (ds.filter fun d => d.requiring = key :: s.progress.requiring).map (·.module) =
      declaredFor key ds := by
  refine congrArg (List.map Completion.module) (List.filter_congr fun d member => ?_)
  obtain ⟨opened, stack, apart⟩ := within d member
  rw [stack]
  cases opened with
  | nil => simp
  | cons first rest =>
    have other : first ≠ key := fun same =>
      apart first List.mem_cons_self (same ▸ List.mem_cons_self)
    simp [other]

/-- A require collects what is declared for its file and leaves the collectors around it alone. -/
theorem require (begun : s.progress.beginRequire key = .ok p)
    (inner : Accounts { s with progress := p } ds t) {declared : List Module}
    (ended : t.progress.endRequire = .ok (declared, q)) (registry : Registry) :
    declared = declaredFor key ds ∧
      Accounts s ds { t with progress := q, registry := registry } := by
  obtain ⟨unopened, rfl⟩ := Progress.beginRequire_ok begun
  have stack : t.progress.requiring = key :: s.progress.requiring := inner.requiring
  have collected : t.progress.collectors =
      (ds.filter fun d => d.requiring = key :: s.progress.requiring).map (·.module) ::
        s.progress.collectors := inner.collectors
  rw [declaredFor_eq inner.within] at collected
  simp only [Progress.endRequire, stack, collected] at ended
  cases ended
  refine ⟨rfl, fun d member => ?_, rfl, ?_⟩
  · obtain ⟨opened, requiring, apart⟩ := inner.within d member
    refine ⟨opened ++ [key], by rw [requiring]; simp, fun k opening => ?_⟩
    rcases List.mem_append.mp opening with deeper | here
    · exact fun old => apart k deeper (List.mem_cons_of_mem key old)
    · rwa [List.mem_singleton.mp here]
  · have deeper : ds.filter (fun d => d.requiring = s.progress.requiring) = [] := by
      refine List.filter_eq_nil_iff.mpr fun d member => ?_
      obtain ⟨opened, requiring, -⟩ := inner.within d member
      have longer := congrArg List.length requiring
      simp only [List.length_append, List.length_cons] at longer
      simp only [decide_eq_true_eq]
      intro same
      rw [same] at longer
      omega
    rw [deeper]
    cases s.progress.collectors <;> simp

theorem load (begun : s.progress.beginLoad key = .ok p)
    (inner : Accounts { s with progress := p } ds t) (ended : t.progress.endLoad = .ok q) :
    Accounts s ds { t with progress := q } := by
  obtain ⟨-, rfl⟩ := Progress.beginLoad_ok begun
  have same : q.requiring = t.progress.requiring ∧ q.collectors = t.progress.collectors := by
    simp only [Progress.endLoad] at ended
    split at ended
    · cases ended
      exact ⟨rfl, rfl⟩
    · cases ended
  exact ⟨inner.within, same.1.trans inner.requiring, same.2.trans inner.collectors⟩

end Accounts

section Courses

variable {loader : Option Loader} {ev : Evaluator} {deeds : Deeds} {scope : FrameId} {s t : State}
  {cs : List Call} {r : Option State} {listed : Call → List Completion}

/-- Over a course that declares no module itself the calls account for all that is collected. -/
theorem Course.accounts (h : Course loader ev deeds scope s cs r)
    (none_declared : ∀ m, ¬ deeds.declares m)
    (inner : ∀ c ∈ cs, ∀ u, (ev c.expr c.scope).Ends c.state u → Accounts c.state (listed c) u)
    (ended : r = some t) : Accounts s (cs.flatMap listed) t := by
  induction h generalizing t with
  | stay | define | set | stamp =>
    cases ended
    exact .nil rfl
  | declare _ _ m _ allowed => exact absurd allowed (none_declared m)
  | stall | stallInRequire | stallInLoad => cases ended
  | andThen _ _ ih₁ ih₂ =>
    rw [List.flatMap_append]
    obtain ⟨before, after⟩ := List.forall_mem_append.mp inner
    exact (ih₁ before rfl).append (ih₂ after ended)
  | call e scope s =>
    rw [List.flatMap_singleton]
    exact inner _ List.mem_cons_self t ended
  | inside _ _ _ _ ih => exact (ih inner ended).of_progress rfl rfl
  | require _ _ begun _ restored _ _ ih =>
    cases ended
    exact (Accounts.require begun (ih inner rfl) restored _).2
  | load _ begun _ restored ih =>
    cases ended
    exact Accounts.load begun (ih inner rfl) restored

end Courses

/-! ## Evaluations -/

namespace Evaluation

open ModularLisp.Action

variable {loader : Option Loader} {fuel n : Nat} {c : Call} {s t : State} {v : Value}
  {key : String} {ms : List Module}

/-- The body of a module form completes its modules in frames behind the form's own. -/
theorem spread_of_module {f : Frame} {ds : List Completion} {u : State}
    (inner : Spread { s with heap := s.heap.push f } ds t) (next : u.heap.next = t.heap.next)
    {m : Module} (own : m.scope = s.heap.next) (requiring : List String) :
    Spread s (ds ++ [⟨m, requiring⟩]) u := by
  have lower : ∀ d ∈ ds, s.heap.next < d.module.scope := by
    intro d member
    have low := (inner.opened d member).1
    rwa [Heap.next_push] at low
  have grown : s.heap.next < t.heap.next := by
    have low := inner.next
    rwa [Heap.next_push] at low
  refine ⟨next ▸ Nat.le_of_lt grown, fun d member => ?_, ?_⟩
  · rw [next]
    rcases List.mem_append.mp member with before | last
    · exact ⟨Nat.le_of_lt (lower d before), (inner.opened d before).2⟩
    · rw [List.mem_singleton.mp last, own]
      exact ⟨Nat.le_refl _, grown⟩
  · refine List.pairwise_append.mpr ⟨inner.apart, List.pairwise_singleton _ _, ?_⟩
    intro d before e last
    rw [List.mem_singleton.mp last, own]
    exact Nat.ne_of_gt (lower d before)

/-- No two completions of an evaluation, however it ends, are of the same module. -/
theorem completions_spread (ended : (eval loader fuel c.expr c.scope).Ends c.state t) :
    Spread c.state (completions loader fuel c) t := by
  induction fuel generalizing c t with
  | zero => cases ended
  | succ fuel ih =>
    have within := eval_within loader fuel
    rw [completions]
    rcases ownCompletion_cases (eval loader (fuel + 1)) c with
      none | ⟨name, exports, body, v, u, form, done, own⟩
    · rw [none, List.append_nil]
      exact (step_follows within loader c.expr c.scope c.state).spread (fun b _ u => ih) ended
    · rw [own]
      obtain ⟨expr, scope, s⟩ := c
      cases form
      cases (Option.some.inj (ended.symm.trans (ends_of_ok done)) : t = u)
      have bodied : (eval loader (fuel + 1) (.moduleDecl name exports body) scope) s = .ok v t :=
        done
      cases evalModule_cases bodied with
      | intro evaluated =>
        have inner := (moduleBody_course loader (eval loader fuel) body scope s).spread
          (fun b _ u => ih) (ends_of_ok evaluated)
        exact spread_of_module inner (Heap.next_bind ..) rfl _

/-- The account of an evaluation that gives a value. -/
theorem completions_account (done : eval loader fuel c.expr c.scope c.state = .ok v t) :
    Accounts c.state (completions loader fuel c) t := by
  induction fuel generalizing c v t with
  | zero => cases done
  | succ fuel ih =>
    have calls : ∀ b ∈ stepCalls loader (eval loader fuel) c.expr c.scope c.state, ∀ u,
        (eval loader fuel b.expr b.scope).Ends b.state u →
          Accounts b.state (completions loader fuel b) u := by
      intro b call u ended
      obtain ⟨w, x, answered⟩ := call_succeeds done call
      cases (Option.some.inj (ended.symm.trans (ends_of_ok answered)) : u = x)
      exact ih answered
    rw [completions]
    obtain ⟨expr, scope, s⟩ := c
    by_cases form : ∃ name exports body, expr = .moduleDecl name exports body
    · obtain ⟨name, exports, body, rfl⟩ := form
      have own : ownCompletion (eval loader (fuel + 1)) ⟨.moduleDecl name exports body, scope, s⟩ =
          [⟨⟨name, s.heap.next, exports⟩, t.progress.requiring⟩] := by
        simp only [ownCompletion, Call.answer, done]
      have bodied : evalModule (eval loader fuel) name exports body scope s = .ok v t := done
      rw [own]
      cases evalModule_cases bodied with
      | @intro _ u _ evaluated =>
        have inner := (moduleBody_course loader (eval loader fuel) body scope s).accounts
          (fun _ => id) calls (ends_of_ok evaluated)
        have declared := Accounts.declare u ⟨name, s.heap.next, exports⟩
        rw [← (Progress.kept_collect u.progress ⟨name, s.heap.next, exports⟩).requiring] at declared
        exact (inner.append declared).of_progress rfl rfl
    · have none : ownCompletion (eval loader (fuel + 1)) ⟨expr, scope, s⟩ = [] := by
        rcases ownCompletion_cases (eval loader (fuel + 1)) ⟨expr, scope, s⟩ with
          none | ⟨name, exports, body, -, -, module, -⟩
        · exact none
        · exact absurd ⟨name, exports, body, module⟩ form
      rw [none, List.append_nil]
      refine (step_follows (eval_within loader fuel) loader expr scope s).accounts ?_ calls
        (ends_of_ok done)
      rintro m ⟨body, module⟩
      exact form ⟨_, _, _, module⟩

/-- A require that caches its file caches what is declared for it. -/
theorem declared_of_completes (completes : Completes loader (eval loader fuel) c key ms) :
    ms = declaredFor key (completions loader (fuel + 1) c) := by
  obtain @⟨l, filename, key, visibility, scope, s, t, forms, v, declared, rfl, canonical, uncached,
    unopened, served, evaluated, collected, -⟩ := completes
  have calls : stepCalls (some l) (eval (some l) fuel) (.requireDecl filename visibility) scope s =
      sequenceCalls (eval (some l) fuel) s.heap.next forms (s.openFile key scope) :=
    requireCalls_uncached canonical uncached unopened served
  have none : ownCompletion (eval (some l) (fuel + 1))
      ⟨.requireDecl filename visibility, scope, s⟩ = [] := rfl
  have follows : (evalBody (eval (some l) fuel) s.heap.next .nil forms).Follows (some l)
      (eval (some l) fuel) .none s.heap.next
      (sequenceCalls (eval (some l) fuel) s.heap.next forms) := evalBody_follows _ _ _
  have account : Accounts (s.openFile key scope)
      ((sequenceCalls (eval (some l) fuel) s.heap.next forms (s.openFile key scope)).flatMap
        (completions (some l) fuel)) t := by
    refine (follows _).accounts (fun _ => id) (fun b call u ended => ?_) (ends_of_ok evaluated)
    obtain ⟨w, x, answered⟩ := (evalBody_makes _ _ forms).passes _ _ v t evaluated b call
    cases (Option.some.inj (ended.symm.trans (ends_of_ok answered)) : u = x)
    exact completions_account answered
  rw [completions, calls, none, List.append_nil, ← Accounts.declaredFor_eq account.within]
  rw [account.collectors] at collected
  exact (Option.some.inj collected).symm

/-- Whatever is cached when an evaluation ends was cached before, or its modules completed while
its file was the innermost one being required. -/
theorem caches_attributed (ended : (eval loader fuel c.expr c.scope).Ends c.state t)
    (cached : t.Caches key ms) : c.state.Caches key ms ∨
      ∀ m ∈ ms, ∃ d ∈ completions loader fuel c, d.module = m ∧ d.requiring.head? = some key := by
  induction fuel generalizing c t with
  | zero => cases ended
  | succ fuel ih =>
    have course := step_follows (eval_within loader fuel) loader c.expr c.scope c.state
    rcases course.caches_cases (fun c u => ih) ended cached with before | ⟨b, call, inside⟩ | own
    · exact Or.inl before
    · refine Or.inr fun m member => ?_
      obtain ⟨d, completed, same⟩ := inside m member
      exact ⟨d, List.mem_append_left _ (List.mem_flatMap.mpr ⟨b, call, completed⟩), same⟩
    · refine Or.inr fun m member => ?_
      rw [declared_of_completes own] at member
      obtain ⟨d, completed, same⟩ := List.mem_map.mp member
      obtain ⟨inside, innermost⟩ := List.mem_filter.mp completed
      exact ⟨d, inside, same, of_decide_eq_true innermost⟩

/-- A file that is not cached when a require of it begins, and the require gives a value. -/
theorem require_attributed {l : Loader} {filename : String} {visibility : Visibility}
    {scope : FrameId} (canonical : l.canonicalName filename = .ok key)
    (uncached : s.registry.files.find? key = none)
    (done : eval (some l) fuel (.requireDecl filename visibility) scope s = .ok v t) :
    t.Caches key (declaredFor key
      (completions (some l) fuel ⟨.requireDecl filename visibility, scope, s⟩)) := by
  cases fuel with
  | zero => cases done
  | succ fuel =>
    have within := eval_within (some l) fuel
    have whole : (requiredModules (some l) (eval (some l) fuel) filename scope >>= fun ms =>
        shareExports filename visibility ms scope) s = .ok v t := done
    obtain ⟨ms, u, required, -⟩ := bind_eq_ok whole
    have case := requiredModules_cases within canonical scope s
    rw [required] at case
    cases case with
    | cached found => cases uncached.symm.trans found
    | declared _ begun evaluated restored some_declared =>
      have completes : Completes (some l) (eval (some l) fuel)
          ⟨.requireDecl filename visibility, scope, s⟩ key ms :=
        completes_of_ok canonical uncached begun evaluated restored some_declared
      rw [← declared_of_completes completes]
      exact completes.caches (ends_of_ok done)

section Forms

variable {scope : FrameId} {forms : List Expr}

theorem completionsOfForms_spread (ended : (evalForms loader fuel scope forms).Ends s t) :
    Spread s (completionsOfForms loader fuel scope forms s) t :=
  (evalForms_follows loader fuel scope forms s).spread (fun _ _ _ => completions_spread) ended

theorem forms_caches_attributed (ended : (evalForms loader fuel scope forms).Ends s t)
    (cached : t.Caches key ms) : s.Caches key ms ∨
      ∀ m ∈ ms, ∃ d ∈ completionsOfForms loader fuel scope forms s,
        d.module = m ∧ d.requiring.head? = some key := by
  have course := evalForms_follows loader fuel scope forms s
  rcases course.caches_cases (fun _ _ => caches_attributed) ended cached with
    before | ⟨b, call, inside⟩ | own
  · exact Or.inl before
  · refine Or.inr fun m member => ?_
    obtain ⟨d, completed, same⟩ := inside m member
    exact ⟨d, List.mem_flatMap.mpr ⟨b, call, completed⟩, same⟩
  · exact own.elim

end Forms

end Evaluation

/-! ## Sessions -/

namespace Session

/-- The module forms that complete in the evaluation of a text. -/
def completions (loader : Option Loader) (fuel : Nat) (s : Session) (index : Nat)
    (source : String) : List Completion :=
  match s.interpreters[index]?, Expr.readAll source with
  | some i, .ok forms => Evaluation.completionsOfForms loader fuel i.root forms (s.stateOf i)
  | _, _ => []

variable {s t : Session} {loader : Option Loader} {fuel index : Nat} {source : String}

/-- The completions of a text are spread over its frames, and what it leaves cached is attributed
to them. -/
theorem evalSource_attributed {i : Interpreter} (found : s.interpreters[index]? = some i)
    {u : State} (ended : (evalSource loader fuel source i).Ends (s.stateOf i) u) :
    Spread (s.stateOf i) (s.completions loader fuel index source) u ∧
      ∀ key ms, u.Caches key ms → (s.stateOf i).Caches key ms ∨
        ∀ m ∈ ms, ∃ d ∈ s.completions loader fuel index source,
          d.module = m ∧ d.requiring.head? = some key := by
  cases read : Expr.readAll source with
  | error e =>
    simp only [evalSource, read] at ended
    rw [Action.reads_throw _ _ _ ended]
    simp only [completions, found, read]
    exact ⟨.nil (Nat.le_refl _), fun key ms cached => Or.inl cached⟩
  | ok forms =>
    simp only [evalSource, read] at ended
    simp only [completions, found, read]
    exact ⟨Evaluation.completionsOfForms_spread ended,
      fun key ms => Evaluation.forms_caches_attributed ended⟩

/-- A registry after an evaluation is one from before, or what the interpreter's has become. -/
theorem registries_update {i : Interpreter} {u : State} {k : Nat} {r : Registry}
    (found : (s.update index i u).registries[k]? = some r) : s.registries[k]? = some r ∨
      s.registries[k]? = some (s.registryOf i) ∧ r = u.registry := by
  by_cases own : i.registry = k
  · subst own
    have old : i.registry < s.registries.size := by
      have bound := (Array.getElem?_eq_some_iff.mp found).1
      rwa [update, Array.size_setIfInBounds] at bound
    refine Or.inr ⟨?_, ?_⟩
    · rw [registryOf, Array.getElem?_eq_getElem old, Option.getD_some]
    · exact (Option.some.inj (found.symm.trans (Array.getElem?_setIfInBounds_self_of_lt old)))
  · exact Or.inl ((Array.getElem?_setIfInBounds_ne own).symm.trans found)

/-- What an evaluation leaves cached in any registry was cached there before, or its modules
completed meanwhile for its file. -/
theorem update_attributed {i : Interpreter} (found : s.interpreters[index]? = some i) {u : State}
    (ended : (evalSource loader fuel source i).Ends (s.stateOf i) u) {k : Nat} {key : String}
    {ms : List Module} (cached : (s.update index i u).Caches k key ms) : s.Caches k key ms ∨
      ∀ m ∈ ms, ∃ d ∈ s.completions loader fuel index source,
        d.module = m ∧ d.requiring.head? = some key := by
  obtain ⟨r, here, entry⟩ := cached
  rcases registries_update here with same | ⟨own, rfl⟩
  · exact Or.inl ⟨r, same, entry⟩
  · rcases (evalSource_attributed found ended).2 key ms entry with before | new
    · exact Or.inl ⟨_, own, before⟩
    · exact Or.inr new

/-- Every step caches only modules that it has opened frames for. -/
theorem Step.caches_cases (step : Step s t) : s.heap.next ≤ t.heap.next ∧
    ∀ k key ms, t.Caches k key ms → s.Caches k key ms ∨
      ∀ m ∈ ms, s.heap.next ≤ m.scope ∧ m.scope < t.heap.next := by
  cases step with
  | addRegistry =>
    refine ⟨Nat.le_refl _, fun k key ms cached => Or.inl ?_⟩
    obtain ⟨r, found, entry⟩ := cached
    rw [Session.addRegistry, Array.getElem?_push] at found
    split at found
    · cases found
      cases entry
    · exact ⟨r, found, entry⟩
  | addInterpreter registry old =>
    refine ⟨?_, fun k key ms cached => Or.inl cached⟩
    rw [Session.addInterpreter, Heap.next_push]
    exact Nat.le_succ _
  | eval loader fuel index source =>
    rcases eval_ends_cases loader fuel s index source with same | ⟨i, u, found, ended, after⟩
    · rw [same]
      exact ⟨Nat.le_refl _, fun k key ms => Or.inl⟩
    · rw [after]
      have spread := (evalSource_attributed found ended).1
      refine ⟨spread.next, fun k key ms cached => ?_⟩
      refine (update_attributed found ended cached).imp_right fun new m member => ?_
      obtain ⟨d, completed, rfl, -⟩ := new m member
      exact spread.opened d completed

theorem Reachable.cached_old (reachable : s.Reachable) {k : Nat} {key : String}
    {ms : List Module} (cached : s.Caches k key ms) : ∀ m ∈ ms, m.scope < s.heap.next := by
  induction reachable with
  | refl =>
    obtain ⟨r, found, -⟩ := cached
    cases found
  | tail _ step ih =>
    obtain ⟨next, cases⟩ := step.caches_cases
    intro m member
    rcases cases k key ms cached with before | new
    · exact Nat.lt_of_lt_of_le (ih before m member) next
    · exact (new m member).2

/-- A module that no file has when its frame is there will never be a file's. -/
theorem Leads.never_cached (leads : s.Leads t) {m : Module} (old : m.scope < s.heap.next)
    (unrecorded : ∀ k key ms, s.Caches k key ms → m ∉ ms) :
    ∀ k key ms, t.Caches k key ms → m ∉ ms := by
  have kept : m.scope < t.heap.next ∧ ∀ k key ms, t.Caches k key ms → m ∉ ms := by
    induction leads with
    | refl => exact ⟨old, unrecorded⟩
    | tail _ step ih =>
      obtain ⟨next, cases⟩ := step.caches_cases
      refine ⟨Nat.lt_of_lt_of_le ih.1 next, fun k key ms cached member => ?_⟩
      rcases cases k key ms cached with before | new
      · exact ih.2 k key ms before member
      · exact Nat.not_lt.mpr (new m member).1 ih.1
  exact kept.2

/-- Modules are attributed to the right file. When a require of an uncached file gives a value, in
any state, the modules cached for the file are, in order, those whose forms completed in this
require while the file was the innermost one being required; whatever completed inside another
require is not among them, and no module is there twice. What else is cached meanwhile got its
modules in the same way. And a module that completes in the evaluation of a text while no file is
being required belongs to no file, then or in any session that comes of it. -/
theorem modules_attributed :
    (∀ {l : Loader} {fuel filename visibility scope s t v key},
      l.canonicalName filename = .ok key → s.registry.files.find? key = none →
      Evaluation.eval (some l) fuel (.requireDecl filename visibility) scope s = .ok v t →
      let ds := Evaluation.completions (some l) fuel ⟨.requireDecl filename visibility, scope, s⟩
      t.Caches key (declaredFor key ds) ∧ (ds.map (·.module)).Nodup ∧
        (∀ d ∈ ds, d.requiring.head? ≠ some key → d.module ∉ declaredFor key ds) ∧
        ∀ other ms, t.Caches other ms → s.Caches other ms ∨
          ∀ m ∈ ms, ∃ d ∈ ds, d.module = m ∧ d.requiring.head? = some other) ∧
    ∀ {s : Session}, s.Reachable → ∀ {loader fuel index source i u},
      s.interpreters[index]? = some i →
      (evalSource loader fuel source i).Ends (s.stateOf i) u →
      ∀ d ∈ s.completions loader fuel index source, d.requiring = [] →
        ∀ t, (s.update index i u).Leads t → ∀ k key ms, t.Caches k key ms → d.module ∉ ms := by
  constructor
  · intro l fuel filename visibility scope s t v key canonical uncached done ds
    have ended := Action.ends_of_ok done
    let c : Call := ⟨.requireDecl filename visibility, scope, s⟩
    have spread : Spread s ds t := Evaluation.completions_spread (c := c) ended
    refine ⟨Evaluation.require_attributed canonical uncached done, ?_, ?_,
      fun other ms => Evaluation.caches_attributed (c := c) ended⟩
    · exact List.pairwise_map.mpr (spread.apart.imp fun other same => other (congrArg _ same))
    · intro d completed elsewhere member
      obtain ⟨e, own, same⟩ := List.mem_map.mp member
      obtain ⟨completed', innermost⟩ := List.mem_filter.mp own
      rw [spread.eq_of_module completed' completed same] at innermost
      exact elsewhere (of_decide_eq_true innermost)
  · intro s reachable loader fuel index source i u found ended d completed outside t leads
    have spread := (evalSource_attributed found ended).1
    obtain ⟨low, high⟩ := spread.opened d completed
    refine leads.never_cached high fun k key ms cached member => ?_
    rcases update_attributed found ended cached with before | new
    · exact Nat.not_lt.mpr low (reachable.cached_old before d.module member)
    · obtain ⟨e, completed', same, innermost⟩ := new d.module member
      rw [spread.eq_of_module completed' completed same, outside] at innermost
      cases innermost

/-- A file that declares a module inside another one, requires a second file and calls twice a
function of a third one, which declares a module: the calls count for it, the second file does
not. -/
theorem modules_attributed_of_nested_files :
    let l : Loader := .ofTable (.ofList [
      ("f", "(module a (export b) (module b (export x) (define x ()))) " ++
        "(require \"g\") (load \"h\")"),
      ("g", "(module c (export x) (define x ()))"),
      ("h", "(define k (lambda () (module d (export x) (define x ())))) (k) (k)")])
    let s := start false 1
    let i : Interpreter := ⟨0, 0, 0, .idle⟩
    let source := "(module e (export x) (define x ())) (require \"f\")"
    (∃ v t, Evaluation.eval (some l) 7 (.requireDecl "f" .all) 0 (s.stateOf i) = .ok v t ∧
      t.Caches "f" [⟨"b", 3, ["x"]⟩, ⟨"a", 2, ["b"]⟩, ⟨"d", 7, ["x"]⟩, ⟨"d", 9, ["x"]⟩]) ∧
    ∃ u, (evalSource (some l) 7 source i).Ends (s.stateOf i) u ∧
      ∀ k key ms, (s.update 0 i u).Caches k key ms → ⟨"e", 1, ["x"]⟩ ∉ ms := by
  intro l s i source
  constructor
  · have canonical : l.canonicalName "f" = .ok "f" := by rfl
    have uncached : (s.stateOf i).registry.files.find? "f" = none := by decide +kernel
    have declared : declaredFor "f" (Evaluation.completions (some l) 7
        ⟨.requireDecl "f" .all, 0, s.stateOf i⟩) =
          [⟨"b", 3, ["x"]⟩, ⟨"a", 2, ["b"]⟩, ⟨"d", 7, ["x"]⟩, ⟨"d", 9, ["x"]⟩] := by decide +kernel
    have succeeds : (Evaluation.eval (some l) 7 (.requireDecl "f" .all) 0
        (s.stateOf i)).value?.isSome = true := by decide +kernel
    obtain ⟨v, t, done⟩ := Action.exists_ok succeeds
    refine ⟨v, t, done, ?_⟩
    rw [← declared]
    exact (modules_attributed.1 canonical uncached done).1
  · have found : s.interpreters[0]? = some i := by decide +kernel
    have lasts : (evalSource (some l) 7 source i (s.stateOf i)).state?.isSome = true := by
      decide +kernel
    obtain ⟨u, ended⟩ := Option.isSome_iff_exists.mp lasts
    have first : (s.completions (some l) 7 0 source)[0]? =
        some ⟨⟨"e", 1, ["x"]⟩, []⟩ := by decide +kernel
    exact ⟨u, ended, modules_attributed.2 (reachable_start false 1) found ended _
      (List.mem_of_getElem? first) rfl _ .refl⟩

end Session

end ModularLisp
