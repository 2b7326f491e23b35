import ModularLisp.Proofs.Fuel
import ModularLisp.Proofs.Sessions

/-!
# Bindings that stay as they are

Evaluation binds names in its own scope and in the frames that it opens; what is bound in any other
frame changes only by a `set`. A frame that was opened for a call is the scope of no evaluation that
goes on after the call has ended. So from then on its bindings stay as they are, in the same
evaluation and in all later ones, save where a `set` reaches them.
-/

namespace ModularLisp

/-- No `set` among these evaluations gives `name` another value in the frame `i`. -/
def Spares (loader : Option Loader) (i : FrameId) (name : String) (cs : List Call) : Prop :=
  ∀ c ∈ cs, ∀ n, ¬ Evaluation.Sets (Evaluation.eval loader n) c i name

/-- An entry of two lists one behind the other is an entry of the first or of the second. -/
theorem split_append {α : Type} {xs ys before after : List α} {a : α}
    (split : xs ++ ys = before ++ a :: after) :
    (∃ rest, xs = before ++ a :: rest ∧ after = rest ++ ys) ∨
      ∃ rest, ys = rest ++ a :: after := by
  rcases List.append_eq_append_iff.mp split with ⟨rest, -, later⟩ | ⟨rest, first, later⟩
  · exact Or.inr ⟨rest, later⟩
  · rcases List.cons_eq_append_iff.mp later with ⟨-, behind⟩ | ⟨more, rfl, behind⟩
    · exact Or.inr ⟨[], behind⟩
    · exact Or.inl ⟨more, first, behind⟩

theorem Heap.find?_bind_of_ne {h : Heap} {i j : FrameId} {name other : String} (v : Value)
    (apart : ¬ (j = i ∧ other = name)) :
    ((h.bind j other v).bindings i).find? name = (h.bindings i).find? name := by
  by_cases here : j = i
  · subst here
    by_cases old : j < h.next
    · have different : other ≠ name := fun same => apart ⟨rfl, same⟩
      rw [bindings_bind_self old, Bindings.find?_insert, if_neg different]
    · have beyond : h.next ≤ j := Nat.le_of_not_lt old
      rw [bindings_of_next_le beyond, bindings_of_next_le (by rwa [next_bind])]
  · rw [bindings_bind_of_ne here]

section Courses

variable {loader : Option Loader} {ev : Evaluator} {deeds : Deeds} {scope i : FrameId}
  {s t : State} {cs : List Call} {r : Option State} {name : String}

/-- A course binds names in its own scope and in new frames; in any other frame it only sets what it
may set. -/
theorem Course.binding_kept (h : Course loader ev deeds scope s cs r)
    (parts : ∀ e scope, (ev e scope).Within scope) (elsewhere : scope ≠ i)
    (old : i < s.heap.next) (unset : ¬ deeds.sets i name)
    (inner : ∀ c ∈ cs, c.scope ≠ i → i < c.state.heap.next → ∀ u,
      (ev c.expr c.scope).Ends c.state u →
        (u.heap.bindings i).find? name = (c.state.heap.bindings i).find? name)
    (ended : r = some t) :
    (t.heap.bindings i).find? name = (s.heap.bindings i).find? name := by
  induction h generalizing t with
  | stay | stamp | declare => cases ended; rfl
  | stall | stallInRequire | stallInLoad => cases ended
  | andThen first _ ih₁ ih₂ =>
    obtain ⟨before, after⟩ := List.forall_mem_append.mp inner
    have still := Nat.lt_of_lt_of_le old (first.evolves parts rfl).heap_kept.remain
    exact (ih₂ elsewhere still after ended).trans (ih₁ elsewhere old before rfl)
  | call e scope s => exact inner _ List.mem_cons_self elsewhere old t ended
  | define scope s v =>
    cases ended
    exact Heap.find?_bind_of_ne v fun same => elsewhere same.1
  | set v _ allowed =>
    cases ended
    refine Heap.find?_bind_of_ne v ?_
    rintro ⟨rfl, rfl⟩
    exact unset allowed
  | @inside scope s _ _ f _ _ ih =>
    have still : i < (s.heap.push f).next := by
      rw [Heap.next_push]
      exact Nat.lt_succ_of_lt old
    have kept := ih (Nat.ne_of_gt old) still inner ended
    rwa [Heap.bindings_push_of_lt old] at kept
  | require _ _ _ _ _ _ _ ih | load _ _ _ _ ih =>
    cases ended
    have kept := ih elsewhere old inner rfl
    exact kept

/-- The calls of a course come after its beginning, in its own scope or in a frame opened since. -/
theorem Course.calls_later (h : Course loader ev deeds scope s cs r)
    (parts : ∀ e scope, (ev e scope).Within scope) : ∀ c ∈ cs,
      s.heap.next ≤ c.state.heap.next ∧
        (c.scope = scope ∨ s.heap.next ≤ c.scope ∧ c.scope < c.state.heap.next) := by
  induction h with
  | stay | stall | define | set | stamp | declare => exact nofun
  | andThen first _ ih₁ ih₂ =>
    have remain := (first.evolves parts rfl).heap_kept.remain
    refine List.forall_mem_append.mpr ⟨ih₁, fun c member => ?_⟩
    obtain ⟨later, place⟩ := ih₂ c member
    exact ⟨Nat.le_trans remain later, place.imp_right fun new => ⟨Nat.le_trans remain new.1, new.2⟩⟩
  | call e scope s =>
    intro c member
    rw [List.mem_singleton.mp member]
    exact ⟨Nat.le_refl _, Or.inl rfl⟩
  | @inside scope s _ _ f _ _ ih =>
    intro c member
    obtain ⟨later, place⟩ := ih c member
    rw [Heap.next_push] at later place
    refine ⟨Nat.le_of_succ_le later, Or.inr ?_⟩
    rcases place with own | ⟨new, opened⟩
    · rw [own]
      exact ⟨Nat.le_refl _, later⟩
    · exact ⟨Nat.le_of_succ_le new, opened⟩
  | require _ _ _ _ _ _ _ ih | stallInRequire _ _ _ _ ih | load _ _ _ _ ih
  | stallInLoad _ _ _ ih => exact ih

theorem Course.call_begins (h : Course loader ev deeds scope s cs r)
    (parts : ∀ e scope, (ev e scope).Within scope) (old : scope < s.heap.next)
    {before after : List Call} {b : Call} (calls : cs = before ++ b :: after) :
    s.heap.next ≤ b.state.heap.next ∧ b.scope < b.state.heap.next := by
  have call : b ∈ cs := calls ▸ List.mem_append_right _ List.mem_cons_self
  obtain ⟨later, own | new⟩ := h.calls_later parts b call
  · exact ⟨later, own ▸ Nat.lt_of_lt_of_le old later⟩
  · exact ⟨later, new.2⟩

/-- After the call `b` of a course has ended, a frame that was opened meanwhile is treated like any
frame apart from the course's scope. -/
theorem Course.binding_kept_after (h : Course loader ev deeds scope s cs r)
    (parts : ∀ e scope, (ev e scope).Within scope) (existing : scope < s.heap.next)
    {before after : List Call} {b : Call} (split : cs = before ++ b :: after) {u : State}
    (answered : (ev b.expr b.scope).Ends b.state u) (new : b.state.heap.next ≤ i)
    (old : i < u.heap.next) (unset : ¬ deeds.sets i name)
    (inner : ∀ c ∈ after, c.scope ≠ i → i < c.state.heap.next → ∀ u,
      (ev c.expr c.scope).Ends c.state u →
        (u.heap.bindings i).find? name = (c.state.heap.bindings i).find? name)
    (ended : r = some t) : i < t.heap.next ∧
      (t.heap.bindings i).find? name = (u.heap.bindings i).find? name := by
  induction h generalizing t before after with
  | stay | stall | stamp | declare | define | set =>
    cases List.append_ne_nil_of_right_ne_nil before (List.cons_ne_nil b after) split.symm
  | stallInRequire | stallInLoad => cases ended
  | @andThen scope s mid cs ds r first second ih₁ ih₂ =>
    rcases split_append split with ⟨rest, here, rfl⟩ | ⟨rest, later⟩
    · obtain ⟨between, next⟩ := List.forall_mem_append.mp inner
      obtain ⟨still, kept⟩ := ih₁ existing here between rfl
      have begun := (first.call_begins parts existing here).1
      have elsewhere : scope ≠ i :=
        Nat.ne_of_lt (Nat.lt_of_lt_of_le existing (Nat.le_trans begun new))
      have remain := (second.evolves parts ended).heap_kept.remain
      refine ⟨Nat.lt_of_lt_of_le still remain, ?_⟩
      exact (second.binding_kept parts elsewhere still unset next ended).trans kept
    · have remain := (first.evolves parts rfl).heap_kept.remain
      exact ih₂ (Nat.lt_of_lt_of_le existing remain) later inner ended
  | call e scope s =>
    obtain ⟨rfl, only⟩ | ⟨-, nothing⟩ := List.singleton_eq_append_iff.mp split
    · cases only
      cases (Option.some.inj (answered.symm.trans ended) : u = t)
      exact ⟨old, rfl⟩
    · cases nothing
  | @inside scope s _ _ f _ _ ih =>
    refine ih ?_ split inner ended
    rw [Heap.next_push]
    exact Nat.lt_succ_self _
  | require _ _ _ _ _ _ _ ih | load _ _ _ _ ih =>
    cases ended
    have kept := ih existing split inner rfl
    exact kept

end Courses

namespace Evaluation

variable {loader : Option Loader} {fuel : Nat} {c : Call} {scope i : FrameId} {s t : State}
  {name : String}

/-- An evaluation in another scope that spares a binding leaves it as it was. -/
theorem binding_kept (ended : (eval loader fuel c.expr c.scope).Ends c.state t)
    (elsewhere : c.scope ≠ i) (old : i < c.state.heap.next)
    (spares : Spares loader i name (trace loader fuel c)) :
    (t.heap.bindings i).find? name = (c.state.heap.bindings i).find? name := by
  induction fuel generalizing c t with
  | zero => cases ended
  | succ fuel ih =>
    have within := eval_within loader fuel
    refine (step_follows within loader c.expr c.scope c.state).binding_kept within elsewhere old
      (spares c List.mem_cons_self fuel) (fun b call elsewhere old u ended => ?_) ended
    refine ih ended elsewhere old fun d inside => spares d (List.mem_cons_of_mem c ?_)
    exact List.mem_flatMap.mpr ⟨b, call, inside⟩

theorem forms_binding_kept {forms : List Expr}
    (ended : (evalForms loader fuel scope forms).Ends s t) (elsewhere : scope ≠ i)
    (old : i < s.heap.next) (spares : Spares loader i name (traceForms loader fuel scope forms s)) :
    (t.heap.bindings i).find? name = (s.heap.bindings i).find? name := by
  refine (evalForms_follows loader fuel scope forms s).binding_kept (eval_within loader fuel)
    elsewhere old id (fun b call elsewhere old u ended => ?_) ended
  exact binding_kept ended elsewhere old fun d inside =>
    spares d (List.mem_flatMap.mpr ⟨b, call, inside⟩)

/-- Around a call that has ended, a course keeps what its later calls spare. -/
theorem binding_kept_around {deeds : Deeds} {cs : List Call} {r : Option State}
    (course : Course loader (eval loader fuel) deeds scope s cs r) (old : scope < s.heap.next)
    {before after : List Call} {b : Call} (calls : cs = before ++ b :: after) {u : State}
    (answered : (eval loader fuel b.expr b.scope).Ends b.state u) (new : b.state.heap.next ≤ i)
    (opened : i < u.heap.next) (unset : ¬ deeds.sets i name)
    (spares : Spares loader i name (after.flatMap (trace loader fuel))) (ended : r = some t) :
    i < t.heap.next ∧ (t.heap.bindings i).find? name = (u.heap.bindings i).find? name :=
  course.binding_kept_after (eval_within loader fuel) old calls answered new opened unset
    (fun _ call elsewhere there _ ended => binding_kept ended elsewhere there fun d inside =>
      spares d (List.mem_flatMap.mpr ⟨_, call, inside⟩)) ended

/-- The calls in an evaluation that have not ended when the call `c` in it ends: those made later
and those around `c`. -/
inductive Remains (loader : Option Loader) (c : Call) : (fuel : Nat) → Call → List Call → Prop
  | own (fuel : Nat) : Remains loader c fuel c []
  | inside {fuel : Nat} {d b : Call} {before after remaining : List Call}
    (calls : stepCalls loader (eval loader fuel) d.expr d.scope d.state = before ++ b :: after)
    (within : Remains loader c fuel b remaining) :
    Remains loader c (fuel + 1) d (remaining ++ after.flatMap (trace loader fuel) ++ [d])

/-- The calls in the evaluation of forms that have not ended when the call `c` ends. -/
inductive RemainsOfForms (loader : Option Loader) (c : Call) (fuel : Nat) (scope : FrameId)
    (forms : List Expr) (s : State) : List Call → Prop
  | inside {b : Call} {before after remaining : List Call}
    (calls : sequenceCalls (eval loader fuel) scope forms s = before ++ b :: after)
    (within : Remains loader c fuel b remaining) :
    RemainsOfForms loader c fuel scope forms s (remaining ++ after.flatMap (trace loader fuel))

theorem exists_remains {d : Call} (inside : c ∈ trace loader fuel d) :
    ∃ remaining, Remains loader c fuel d remaining := by
  induction fuel generalizing d with
  | zero =>
    rw [← List.mem_singleton.mp inside]
    exact ⟨[], .own 0⟩
  | succ fuel ih =>
    rcases List.mem_cons.mp inside with rfl | deeper
    · exact ⟨[], .own (fuel + 1)⟩
    · obtain ⟨b, call, inside⟩ := List.mem_flatMap.mp deeper
      obtain ⟨before, after, calls⟩ := List.append_of_mem call
      obtain ⟨remaining, within⟩ := ih inside
      exact ⟨_, .inside calls within⟩

theorem exists_remainsOfForms {forms : List Expr}
    (inside : c ∈ traceForms loader fuel scope forms s) :
    ∃ remaining, RemainsOfForms loader c fuel scope forms s remaining := by
  obtain ⟨b, call, inside⟩ := List.mem_flatMap.mp inside
  obtain ⟨before, after, calls⟩ := List.append_of_mem call
  obtain ⟨remaining, within⟩ := exists_remains inside
  exact ⟨_, .inside calls within⟩

/-- A call inside an evaluation begins later, in a scope that is there by then. -/
theorem Remains.begins {d : Call} {remaining : List Call}
    (h : Remains loader c fuel d remaining) (old : d.scope < d.state.heap.next) :
    d.state.heap.next ≤ c.state.heap.next ∧ c.scope < c.state.heap.next := by
  induction h with
  | own => exact ⟨Nat.le_refl _, old⟩
  | @inside fuel d b before after _ calls _ ih =>
    have within := eval_within loader fuel
    have course := step_follows within loader d.expr d.scope d.state
    obtain ⟨first, there⟩ := course.call_begins within old calls
    obtain ⟨later, place⟩ := ih there
    exact ⟨Nat.le_trans first later, place⟩

/-- A frame that was opened during a call keeps a binding to the end of the evaluation around it, if
the calls that remain spare it. -/
theorem Remains.binding_kept {d : Call} {remaining : List Call} {u : State}
    (h : Remains loader c fuel d remaining) (old : d.scope < d.state.heap.next) {n : Nat}
    (answered : (eval loader n c.expr c.scope).Ends c.state u) (new : c.state.heap.next ≤ i)
    (opened : i < u.heap.next) (spares : Spares loader i name remaining)
    (ended : (eval loader fuel d.expr d.scope).Ends d.state t) : i < t.heap.next ∧
      (t.heap.bindings i).find? name = (u.heap.bindings i).find? name := by
  induction h generalizing t with
  | own fuel =>
    cases (eval_ends_unique answered ended : u = t)
    exact ⟨opened, rfl⟩
  | @inside fuel d b before after remaining calls inner ih =>
    have within := eval_within loader fuel
    have course := step_follows within loader d.expr d.scope d.state
    have there := (course.call_begins within old calls).2
    obtain ⟨deeper, last⟩ := List.forall_mem_append.mp spares
    obtain ⟨deeper, later⟩ := List.forall_mem_append.mp deeper
    obtain ⟨w, middle⟩ := call_ends ended (calls ▸ List.mem_append_right _ List.mem_cons_self)
    obtain ⟨still, kept⟩ := ih there deeper middle
    have behind := Nat.le_trans (inner.begins there).1 new
    obtain ⟨there, same⟩ := binding_kept_around course old calls middle behind still
      (last d List.mem_cons_self fuel) later ended
    exact ⟨there, same.trans kept⟩

theorem RemainsOfForms.begins {forms : List Expr} {remaining : List Call}
    (h : RemainsOfForms loader c fuel scope forms s remaining) (old : scope < s.heap.next) :
    s.heap.next ≤ c.state.heap.next ∧ c.scope < c.state.heap.next := by
  cases h with
  | inside calls inner =>
    have within := eval_within loader fuel
    have course := evalForms_follows loader fuel scope forms s
    obtain ⟨first, there⟩ := course.call_begins within old calls
    obtain ⟨later, place⟩ := inner.begins there
    exact ⟨Nat.le_trans first later, place⟩

theorem RemainsOfForms.binding_kept {forms : List Expr} {remaining : List Call} {u : State}
    (h : RemainsOfForms loader c fuel scope forms s remaining) (old : scope < s.heap.next) {n : Nat}
    (answered : (eval loader n c.expr c.scope).Ends c.state u) (new : c.state.heap.next ≤ i)
    (opened : i < u.heap.next) (spares : Spares loader i name remaining)
    (ended : (evalForms loader fuel scope forms).Ends s t) : i < t.heap.next ∧
      (t.heap.bindings i).find? name = (u.heap.bindings i).find? name := by
  cases h with
  | @inside b before after remaining calls inner =>
    have within := eval_within loader fuel
    have course := evalForms_follows loader fuel scope forms s
    have there := (course.call_begins within old calls).2
    obtain ⟨deeper, later⟩ := List.forall_mem_append.mp spares
    obtain ⟨w, middle⟩ := forms_call_ends ended
      (calls ▸ List.mem_append_right _ List.mem_cons_self)
    obtain ⟨still, kept⟩ := inner.binding_kept there answered new opened deeper middle
    have behind := Nat.le_trans (inner.begins there).1 new
    obtain ⟨there, same⟩ := binding_kept_around course old calls middle behind still id later
      ended
    exact ⟨there, same.trans kept⟩

end Evaluation

namespace Session

/-- A step in which no `set` gives `name` another value in the frame `i`. -/
inductive StepSparing (i : FrameId) (name : String) (s : Session) : Session → Prop
  | addRegistry : StepSparing i name s s.addRegistry
  | addInterpreter (registry : Nat) (old : registry < s.registries.size) :
    StepSparing i name s (s.addInterpreter registry)
  | eval {loader : Option Loader} {fuel index : Nat} {source : String}
    (spares : Spares loader i name (s.trace loader fuel index source)) :
    StepSparing i name s (s.eval loader fuel index source).2

/-- What a session may become by steps that spare a binding. -/
abbrev LeadsSparing (i : FrameId) (name : String) (s t : Session) : Prop :=
  Relation.ReflTransGen (StepSparing i name) s t

/-- The frame `i` is there and is no interpreter's root. -/
structure Inner (i : FrameId) (s : Session) : Prop where
  old : i < s.heap.next
  roots : ∀ j ∈ s.interpreters, j.root ≠ i

variable {s t : Session} {i : FrameId} {name : String}

theorem StepSparing.binding_kept (step : StepSparing i name s t) (inner : Inner i s) :
    Inner i t ∧ (t.heap.bindings i).find? name = (s.heap.bindings i).find? name := by
  cases step with
  | addRegistry => exact ⟨⟨inner.old, inner.roots⟩, rfl⟩
  | addInterpreter registry old =>
    refine ⟨⟨?_, fun j member => ?_⟩, ?_⟩
    · rw [Session.addInterpreter, Heap.next_push]
      exact Nat.lt_succ_of_lt inner.old
    · rcases Array.mem_push.mp member with older | rfl
      · exact inner.roots j older
      · exact Nat.ne_of_gt inner.old
    · rw [Session.addInterpreter, Heap.bindings_push_of_lt inner.old]
  | @eval loader fuel index source spares =>
    rcases eval_ends_cases loader fuel s index source with same | ⟨j, u, found, ended, after⟩
    · rw [same]
      exact ⟨inner, rfl⟩
    · rw [after]
      have evolves := evalSource_within loader fuel source j _ u ended
      have elsewhere := inner.roots j (Array.mem_of_getElem? found)
      refine ⟨⟨?_, fun k member => ?_⟩, ?_⟩
      · exact Nat.lt_of_lt_of_le inner.old evolves.heap_kept.remain
      · rcases mem_interpreters_update member with older | rfl
        · exact inner.roots k older
        · exact elsewhere
      · cases read : Expr.readAll source with
        | error e =>
          simp only [evalSource, read] at ended
          rw [Action.reads_throw _ _ _ ended]
          rfl
        | ok forms =>
          simp only [evalSource, read] at ended
          rw [trace_eq found read] at spares
          exact Evaluation.forms_binding_kept ended elsewhere inner.old spares

theorem LeadsSparing.binding_kept (leads : s.LeadsSparing i name t) (inner : Inner i s) :
    (t.heap.bindings i).find? name = (s.heap.bindings i).find? name := by
  have kept : Inner i t ∧ (t.heap.bindings i).find? name = (s.heap.bindings i).find? name := by
    induction leads with
    | refl => exact ⟨inner, rfl⟩
    | tail _ step ih =>
      obtain ⟨still, same⟩ := step.binding_kept ih.1
      exact ⟨still, same.trans ih.2⟩
  exact kept.2

end Session

end ModularLisp
