import Mathlib.Logic.Relation
import ModularLisp.Proofs.Frames
import ModularLisp.Session

/-!
# Reachable sessions

A session changes by new registries, new interpreters and evaluations of texts, which may fail.
Between evaluations an interpreter has nothing in progress.
-/

namespace ModularLisp

/-- The kind of error that an evaluation has failed with. -/
def Outcome.errorKind? : Outcome → Option ErrorKind
  | .error e => some e.kind
  | _ => none

namespace Session

inductive Step (s : Session) : Session → Prop
  | addRegistry : Step s s.addRegistry
  | addInterpreter (registry : Nat) (old : registry < s.registries.size) :
    Step s (s.addInterpreter registry)
  | eval (loader : Option Loader) (fuel index : Nat) (source : String) :
    Step s (s.eval loader fuel index source).2

/-- What a session may become by any number of steps. -/
abbrev Leads (s t : Session) : Prop := Relation.ReflTransGen Step s t

def Reachable (s : Session) : Prop := empty.Leads s

/-- A step whose text and whose loader, if it has one, are admitted. -/
inductive StepBy (admitted : Loader → Prop) (texts : String → Prop) (s : Session) : Session → Prop
  | addRegistry : StepBy admitted texts s s.addRegistry
  | addInterpreter (registry : Nat) (old : registry < s.registries.size) :
    StepBy admitted texts s (s.addInterpreter registry)
  | eval {loader : Option Loader} (admits : ∀ l, loader = some l → admitted l) (fuel index : Nat)
    {source : String} (text : texts source) :
    StepBy admitted texts s (s.eval loader fuel index source).2

/-- Reached by steps with admitted loaders and texts only. -/
abbrev ReachableBy (admitted : Loader → Prop) (texts : String → Prop) (s : Session) : Prop :=
  Relation.ReflTransGen (StepBy admitted texts) empty s

section Admitted

variable {admitted : Loader → Prop} {texts : String → Prop}

theorem StepBy.step {s t : Session} (step : StepBy admitted texts s t) : Step s t := by
  cases step with
  | addRegistry => exact .addRegistry
  | addInterpreter registry old => exact .addInterpreter registry old
  | @eval _ _ fuel index source => exact .eval _ fuel index source

theorem ReachableBy.reachable {s : Session} (reached : s.ReachableBy admitted texts) :
    s.Reachable :=
  Relation.ReflTransGen.mono (fun _ _ step => StepBy.step step) empty s reached

end Admitted

theorem size_registries_start (count : Nat) : (start false count).registries.size = count := by
  induction count with
  | zero => rfl
  | succ count ih =>
    simp only [start, Bool.false_eq_true, if_false, addInterpreter, addRegistry, Array.size_push,
      ih]

theorem one_registry_start (count : Nat) : 0 < (start true count).registries.size := by
  induction count with
  | zero => exact Nat.one_pos
  | succ count ih => exact ih

theorem reachableBy_start (admitted : Loader → Prop) (texts : String → Prop) (shared : Bool)
    (count : Nat) : (start shared count).ReachableBy admitted texts := by
  induction count with
  | zero =>
    cases shared with
    | false => exact .refl
    | true => exact .single .addRegistry
  | succ count ih =>
    cases shared with
    | false =>
      refine (ih.tail .addRegistry).tail (.addInterpreter count ?_)
      simp [addRegistry, size_registries_start]
    | true => exact ih.tail (.addInterpreter 0 (one_registry_start count))

/-- Any number of fresh interpreters, with registries of their own or with one for all. -/
theorem reachable_start (shared : Bool) (count : Nat) : (start shared count).Reachable :=
  (reachableBy_start (fun _ => True) (fun _ => True) shared count).reachable

theorem leads_run (loader : Option Loader) (fuel : Nat) (s : Session)
    (steps : List (Nat × String)) : s.Leads (s.run loader fuel steps).2 := by
  induction steps generalizing s with
  | nil => exact .refl
  | cons step rest ih => exact .head (.eval loader fuel step.1 step.2) (ih _)

theorem evalSource_within (loader : Option Loader) (fuel : Nat) (source : String)
    (i : Interpreter) : (evalSource loader fuel source i).Within i.root := by
  rw [evalSource]
  split
  · exact Evaluation.evalForms_within loader fuel i.root _
  · exact (Action.reads_throw _).within

theorem eval_ok {s : Session} {index : Nat} {i : Interpreter} {source : String} {forms : List Expr}
    (found : s.interpreters[index]? = some i) (read : Expr.readAll source = .ok forms)
    {loader : Option Loader} {fuel : Nat} {v : Value} {t : State}
    (evaluated : Evaluation.evalForms loader fuel i.root forms (s.stateOf i) = .ok v t) :
    s.eval loader fuel index source = (.value v, s.update index i t) := by
  simp only [eval, perform, found, evalSource, read, evaluated]

theorem eval_error {s : Session} {index : Nat} {i : Interpreter} {source : String}
    {forms : List Expr} (found : s.interpreters[index]? = some i)
    (read : Expr.readAll source = .ok forms) {loader : Option Loader} {fuel : Nat} {e : Error}
    {t : State}
    (failed : Evaluation.evalForms loader fuel i.root forms (s.stateOf i) = .error e t) :
    s.eval loader fuel index source = (.error e, s.update index i t) := by
  simp only [eval, perform, found, evalSource, read, failed]

theorem eval_ends {s : Session} {index : Nat} {i : Interpreter} {source : String}
    {forms : List Expr} (found : s.interpreters[index]? = some i)
    (read : Expr.readAll source = .ok forms) {loader : Option Loader} {fuel : Nat} {t : State}
    (ended : (Evaluation.evalForms loader fuel i.root forms).Ends (s.stateOf i) t) :
    (s.eval loader fuel index source).2 = s.update index i t := by
  rcases Action.ends_iff.mp ended with ⟨v, evaluated⟩ | ⟨e, failed⟩
  · rw [eval_ok found read evaluated]
  · rw [eval_error found read failed]

/-- An evaluation leaves the session as it was or puts back the state in which the evaluation for an
interpreter has ended. -/
theorem eval_ends_cases (loader : Option Loader) (fuel : Nat) (s : Session) (index : Nat)
    (source : String) : (s.eval loader fuel index source).2 = s ∨
      ∃ i t, s.interpreters[index]? = some i ∧
        (evalSource loader fuel source i).Ends (s.stateOf i) t ∧
        (s.eval loader fuel index source).2 = s.update index i t := by
  simp only [eval, perform]
  split
  · exact Or.inl rfl
  · rename_i i found
    split
    · rename_i v t ended
      exact Or.inr ⟨i, t, found, Action.ends_of_ok ended, rfl⟩
    · rename_i e t ended
      exact Or.inr ⟨i, t, found, Action.ends_of_error ended, rfl⟩
    · exact Or.inl rfl

theorem eval_cases (loader : Option Loader) (fuel : Nat) (s : Session) (index : Nat)
    (source : String) : (s.eval loader fuel index source).2 = s ∨
      ∃ i t, s.interpreters[index]? = some i ∧ Evolves i.root (s.stateOf i) t ∧
        (s.eval loader fuel index source).2 = s.update index i t := by
  rcases eval_ends_cases loader fuel s index source with same | ⟨i, t, found, ended, after⟩
  · exact Or.inl same
  · exact Or.inr ⟨i, t, found, evalSource_within loader fuel source i _ t ended, after⟩

/-- What has been put back is what the interpreter goes on with. -/
theorem stateOf_update_self {s : Session} {i : Interpreter} (old : i.registry < s.registries.size)
    (index : Nat) (t : State) :
    (s.update index i t).stateOf { i with progress := t.progress } = t := by
  simp only [stateOf, registryOf, update, Array.getElem?_setIfInBounds_self_of_lt old,
    Option.getD_some]

theorem mem_interpreters_update {s : Session} {index : Nat} {i j : Interpreter} {t : State}
    (h : j ∈ (s.update index i t).interpreters) :
    j ∈ s.interpreters ∨ j = { i with progress := t.progress } :=
  Array.mem_or_eq_of_mem_setIfInBounds h

end Session

theorem Progress.Kept.idle {p : Progress} (h : Kept idle p) : p = idle := by
  obtain ⟨requiring, loading, collectors⟩ := p
  obtain ⟨new, hnew⟩ := h.collectors
  have hr : requiring = [] := h.requiring
  have hl : loading = [] := h.loading
  have hc : collectors = [] := hnew
  rw [hr, hl, hc]
  rfl

namespace Session

theorem Step.keeps_idle {s t : Session} (step : Step s t)
    (idle : ∀ i ∈ s.interpreters, i.progress = .idle) :
    ∀ i ∈ t.interpreters, i.progress = .idle := by
  cases step with
  | addRegistry => exact idle
  | addInterpreter registry old =>
    intro i member
    rcases Array.mem_push.mp member with older | rfl
    · exact idle i older
    · rfl
  | eval loader fuel index source =>
    rcases eval_cases loader fuel s index source with same | ⟨i, t, found, evolves, after⟩
    · rwa [same]
    · rw [after]
      intro j member
      rcases mem_interpreters_update member with older | rfl
      · exact idle j older
      · have kept := evolves.progress_kept
        have before : (s.stateOf i).progress = .idle := idle i (Array.mem_of_getElem? found)
        rw [before] at kept
        exact kept.idle

theorem Reachable.idle {s : Session} (reachable : s.Reachable) :
    ∀ i ∈ s.interpreters, i.progress = .idle := by
  induction reachable with
  | refl => intro i member; cases Array.not_mem_empty i member
  | tail _ step ih => exact step.keeps_idle ih

/-- Every interpreter's root is a frame. -/
theorem Reachable.roots {s : Session} (reachable : s.Reachable) :
    ∀ i ∈ s.interpreters, i.root < s.heap.next := by
  induction reachable with
  | refl => intro i member; cases Array.not_mem_empty i member
  | @tail b c _ step ih =>
    cases step with
    | addRegistry => exact ih
    | addInterpreter registry old =>
      intro i member
      rw [Session.addInterpreter, Heap.next_push]
      rcases Array.mem_push.mp member with older | rfl
      · exact Nat.lt_succ_of_lt (ih i older)
      · exact Nat.lt_succ_self _
    | eval loader fuel index source =>
      rcases eval_cases loader fuel b index source with same | ⟨i, t, found, evolves, after⟩
      · rwa [same]
      · rw [after]
        intro j member
        refine Nat.lt_of_lt_of_le ?_ evolves.heap_kept.remain
        rcases mem_interpreters_update member with older | rfl
        · exact ih j older
        · exact ih i (Array.mem_of_getElem? found)

theorem Step.keeps_registered {s t : Session} (step : Step s t)
    (registered : ∀ i ∈ s.interpreters, i.registry < s.registries.size) :
    ∀ i ∈ t.interpreters, i.registry < t.registries.size := by
  cases step with
  | addRegistry =>
    intro i member
    rw [Session.addRegistry, Array.size_push]
    exact Nat.lt_succ_of_lt (registered i member)
  | addInterpreter registry old =>
    intro i member
    rcases Array.mem_push.mp member with older | rfl
    · exact registered i older
    · exact old
  | eval loader fuel index source =>
    rcases eval_cases loader fuel s index source with same | ⟨i, t, found, -, after⟩
    · rwa [same]
    · rw [after]
      intro j member
      rw [update, Array.size_setIfInBounds]
      rcases mem_interpreters_update member with older | rfl
      · exact registered j older
      · exact registered i (Array.mem_of_getElem? found)

/-- Every interpreter has a registry. -/
theorem Reachable.registered {s : Session} (reachable : s.Reachable) :
    ∀ i ∈ s.interpreters, i.registry < s.registries.size := by
  induction reachable with
  | refl => intro i member; cases Array.not_mem_empty i member
  | tail _ step ih => exact step.keeps_registered ih

section Registries

variable {P : Registry → Prop} {s t : Session}

theorem registryOf_keeps (empty : P .empty) (all : ∀ r ∈ s.registries, P r) (i : Interpreter) :
    P (s.registryOf i) := by
  rw [registryOf]
  cases found : s.registries[i.registry]? with
  | none => exact empty
  | some r => exact all r (Array.mem_of_getElem? found)

/-- What holds of new registries and is kept by every evolution holds of all registries. -/
theorem Step.keeps_registries (step : Step s t) (empty : P .empty)
    (evolves : ∀ {scope u v}, Evolves scope u v → P u.registry → P v.registry)
    (all : ∀ r ∈ s.registries, P r) : ∀ r ∈ t.registries, P r := by
  cases step with
  | addRegistry =>
    intro r member
    rcases Array.mem_push.mp member with older | rfl
    · exact all r older
    · exact empty
  | addInterpreter registry old => exact all
  | eval loader fuel index source =>
    rcases eval_cases loader fuel s index source with same | ⟨i, t, found, evolved, after⟩
    · rwa [same]
    · rw [after]
      intro r member
      rcases Array.mem_or_eq_of_mem_setIfInBounds member with older | rfl
      · exact all r older
      · exact evolves evolved (registryOf_keeps empty all i)

/-- A step changes a registry only in the way in which the evaluation of a text evolves it. -/
theorem Step.registry_cases (step : Step s t) {k : Nat} {r : Registry}
    (found : s.registries[k]? = some r) : t.registries[k]? = some r ∨
      ∃ i ∈ s.interpreters, ∃ u, Evolves i.root (s.stateOf i) u ∧ s.registryOf i = r ∧
        t.registries[k]? = some u.registry := by
  cases step with
  | addRegistry =>
    have old : k < s.registries.size := (Array.getElem?_eq_some_iff.mp found).1
    exact Or.inl ((Array.getElem?_push_lt old).trans
      ((Array.getElem?_eq_getElem old).symm.trans found))
  | addInterpreter registry old => exact Or.inl found
  | eval loader fuel index source =>
    rcases eval_cases loader fuel s index source with same | ⟨i, u, here, evolves, after⟩
    · rw [same]
      exact Or.inl found
    · rw [after]
      by_cases own : i.registry = k
      · subst own
        have old : i.registry < s.registries.size := (Array.getElem?_eq_some_iff.mp found).1
        refine Or.inr ⟨i, Array.mem_of_getElem? here, u, evolves, ?_, ?_⟩
        · rw [registryOf, found, Option.getD_some]
        · exact Array.getElem?_setIfInBounds_self_of_lt old
      · exact Or.inl ((Array.getElem?_setIfInBounds_ne own).trans found)

theorem Reachable.registries (reachable : s.Reachable) (empty : P .empty)
    (evolves : ∀ {scope u v}, Evolves scope u v → P u.registry → P v.registry) :
    ∀ r ∈ s.registries, P r := by
  induction reachable with
  | refl => exact fun r member => absurd member (Array.not_mem_empty r)
  | tail _ step ih => exact step.keeps_registries empty evolves ih

end Registries

end Session

end ModularLisp
