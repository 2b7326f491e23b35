import ModularLisp.Proofs.KeptBindings
import ModularLisp.Proofs.QualifiedNames
import ModularLisp.Proofs.Reading

/-!
# What a namespace remembers

A namespace holds what the exports were bound to when its module's form ended; an import reads the
module's scope when it is evaluated. A module's scope is the scope of no later evaluation, so only a
`set` can change what is bound there. The two ways to an export differ after such a `set` and agree
without one.
-/

namespace ModularLisp

namespace Evaluation

open ModularLisp.Action

/-- A child of `scope` that has imported a bound module sees its exports as they are bound in the
module's scope now. -/
theorem import_in_child {s : State} {name x : String} {m : Module} {v : Value}
    (registered : s.registry.modules.find? name = some m) (bound : m.Bound s.heap)
    (exported : x ∈ m.exports) (now : (s.heap.bindings m.scope).find? x = some v)
    (scope : FrameId) : ∃ t, ∀ loader fuel, (openScope scope >>= fun inner =>
      evalForms loader (fuel + 1) inner [.importDecl name, .symbol x]) s = .ok v t := by
  let child : State := { s with heap := s.heap.push (s.heap.innerFrame scope) }
  have still : m.Bound child.heap := bound.kept (.push 0 s.heap _)
  obtain ⟨t, imported, binds⟩ := evalImport_ok (s := child) registered still s.heap.next
  have opened : s.heap.next < child.heap.next := by
    rw [Heap.next_push]
    exact Nat.lt_succ_self _
  have old : m.scope < s.heap.next := Heap.lt_next_of_binds (bound x exported).2
  have own : (t.heap.bindings s.heap.next).find? x = some v := by
    rw [binds opened x exported, Heap.bindings_push_of_lt old, now]
  have seen : t.heap.lookup s.heap.next x = .ok v := by
    rw [Heap.lookup, Heap.value?, Heap.chain, List.findSome?_cons, own]
  refine ⟨t, fun loader fuel => ?_⟩
  have done : eval loader (fuel + 1) (.importDecl name) s.heap.next child = .ok .nil t := imported
  rw [bind_ok (openScope_eq scope s), evalForms, evalBody, bind_ok done, evalBody,
    bind_ok (eval_symbol loader fuel seen)]
  rfl

end Evaluation

namespace Session

open Evaluation

/-- Let a module form give a value while a text is evaluated, at the top level of the text or
anywhere on the way, and let later the module still be registered under its name and the root bind
the name to the namespace that the form made. Then `name.x` at the root gives what the export `x`
was bound to in the module's scope when the form ended, and `x` in a fresh child of the root that
imports the module gives what it is bound to there now. Without a `set` since that gives this
binding another value the two are the same. -/
theorem qualified_access_and_import {s t : Session} (reachable : s.Reachable)
    {loader : Option Loader} {fuel index : Nat} {source : String} {i j : Interpreter}
    (found : s.interpreters[index]? = some i) {forms : List Expr}
    (read : Expr.readAll source = .ok forms)
    (finished : evalForms loader fuel i.root forms (s.stateOf i) ≠ .outOfFuel)
    {name : String} {exports : List String} {body : List Expr} {scope : FrameId} {u₁ u₂ : State}
    {v : Value}
    (call : ⟨.moduleDecl name exports body, scope, u₁⟩ ∈ s.trace loader fuel index source)
    (declared : Evaluation.eval loader fuel (.moduleDecl name exports body) scope u₁ = .ok v u₂)
    (leads : (s.eval loader fuel index source).2.Leads t)
    (later : t.interpreters[index]? = some j)
    (registered : (t.registryOf j).modules.find? name = some ⟨name, u₁.heap.next, exports⟩)
    (bound : (t.heap.bindings j.root).find? name = (u₂.heap.bindings scope).find? name)
    (undotted : '.' ∉ name.toList) {x : String} (exported : x ∈ exports)
    (plain : t.heap.value? j.root (name ++ "." ++ x) = none) :
    ∃ old now r, (u₂.heap.bindings u₁.heap.next).find? x = some old ∧
      (t.heap.bindings u₁.heap.next).find? x = some now ∧
      (∀ loader n, Evaluation.eval loader (n + 1) (.symbol (name ++ "." ++ x)) j.root
        (t.stateOf j) = .ok old (t.stateOf j)) ∧
      (∀ loader n, (Action.openScope j.root >>= fun inner =>
        evalForms loader (n + 1) inner [.importDecl name, .symbol x]) (t.stateOf j) = .ok now r) ∧
      ∀ remaining, RemainsOfForms loader ⟨.moduleDecl name exports body, scope, u₁⟩ fuel i.root
          forms (s.stateOf i) remaining → Spares loader u₁.heap.next x remaining →
        (s.eval loader fuel index source).2.LeadsSparing u₁.heap.next x t → now = old := by
  have member := Array.mem_of_getElem? found
  obtain ⟨u, ended⟩ := Action.exists_ends finished
  have after := eval_ends found read ended
  rw [after] at leads ⊢
  have reached : t.Reachable :=
    (reachable.tail (after ▸ Step.eval loader fuel index source)).trans leads
  have sound := (reached.sound.stateOf (reached.idle j (Array.mem_of_getElem? later)))
  have still : Module.Bound ⟨name, u₁.heap.next, exports⟩ t.heap :=
    sound.registry _ (.named registered)
  have nonempty : ∀ x ∈ exports, x ≠ "" := fun x listed => (still x listed).1
  rw [trace_eq found read] at call
  have root := reachable.roots i member
  obtain ⟨behind, place⟩ := (exists_remainsOfForms call).choose_spec.begins root
  obtain ⟨-, stamp, members, namespaced, holds⟩ := declares_of_ok nonempty place declared
  obtain ⟨old, then_bound, remembered⟩ := holds x exported
  obtain ⟨now, now_bound⟩ := Option.isSome_iff_exists.mp (still x exported).2
  obtain ⟨r, imported⟩ := import_in_child (s := t.stateOf j) registered still exported now_bound
    j.root
  refine ⟨old, now, r, then_bound, now_bound, fun loader n => eval_symbol loader n ?_, imported,
    fun remaining remains spares sparing => ?_⟩
  · rw [namespaced] at bound
    have seen : t.heap.value? j.root name = some (.nameSpace stamp name members) := by
      rw [Heap.value?, Heap.chain, List.findSome?_cons, bound]
    have titled : name ≠ "" := by
      rintro rfl
      cases (sound.named j.root).symm.trans bound
    exact Heap.lookup_member undotted titled (nonempty x exported) plain seen remembered
  · have opened : u₁.heap.next < u₂.heap.next :=
      Heap.lt_next_of_binds (Option.isSome_iff_exists.mpr ⟨old, then_bound⟩)
    obtain ⟨there, kept⟩ := remains.binding_kept root (Action.ends_of_ok declared)
      (Nat.le_refl u₁.heap.next) opened spares ended
    -- All roots are older than the text, and the module's scope is not.
    have inner : Inner u₁.heap.next (s.update index i u) := by
      have older : ∀ k ∈ s.interpreters, k.root ≠ u₁.heap.next := fun k known =>
        Nat.ne_of_lt (Nat.lt_of_lt_of_le (reachable.roots k known) behind)
      refine ⟨there, fun k known => ?_⟩
      rcases mem_interpreters_update known with before | rfl
      · exact older k before
      · exact older i member
    have same := (sparing.binding_kept inner).trans kept
    rw [then_bound, now_bound] at same
    exact Option.some.inj same

def turningText : String :=
  "(module m (export n turn) (define n true) (define turn (lambda () (set n ()))))"

/-- The function `turn` sets the export `n`. -/
def turningBody : List Expr :=
  [.list [.symbol "define", .symbol "n", .boolean true],
    .list [.symbol "define", .symbol "turn",
      .list [.symbol "lambda", .list [], .list [.symbol "set", .symbol "n", .list []]]]]

def turningForm : Expr := .moduleDecl "m" ["n", "turn"] turningBody

def turningMembers : Bindings Value :=
  .ofList [("n", .boolean true),
    ("turn", .closure 1 ⟨[], [.list [.symbol "set", .symbol "n", .list []]], 1, none⟩)]

/-- The module's scope binds its exports as given, and the namespace as they were at first; further
frames come from calls. -/
def turningState (own : Bindings Value) (calls : List Frame) : State where
  heap := ⟨⟨⟨(Builtin.bindings 0).insert "m" (.nameSpace 2 "m" turningMembers), []⟩ ::
    ⟨own, [0]⟩ :: calls⟩⟩
  registry := ⟨.ofList [("m", ⟨"m", 1, ["n", "turn"]⟩)], .empty⟩
  progress := .idle
  fresh := 3

def declaredState : State := turningState turningMembers []

def turnedState : State :=
  turningState (turningMembers.insert "n" (.list [])) [⟨.empty, [1, 0]⟩]

def turningSession : Session := ((start false 1).eval none 4 0 turningText).2

/-- The session after a call of `turn`. -/
def turnedSession : Session := (turningSession.eval none 4 0 "(m.turn)").2

theorem readAll_turningText : Expr.readAll turningText = .ok [turningForm] :=
  Expr.readAll_of_tokens [⟨.openParen, "("⟩, ⟨.symbol, "module"⟩, ⟨.symbol, "m"⟩,
    ⟨.openParen, "("⟩, ⟨.symbol, "export"⟩, ⟨.symbol, "n"⟩, ⟨.symbol, "turn"⟩, ⟨.closeParen, ")"⟩,
    ⟨.openParen, "("⟩, ⟨.symbol, "define"⟩, ⟨.symbol, "n"⟩, ⟨.boolean, "true"⟩, ⟨.closeParen, ")"⟩,
    ⟨.openParen, "("⟩, ⟨.symbol, "define"⟩, ⟨.symbol, "turn"⟩, ⟨.openParen, "("⟩,
    ⟨.symbol, "lambda"⟩, ⟨.openParen, "("⟩, ⟨.closeParen, ")"⟩, ⟨.openParen, "("⟩, ⟨.symbol, "set"⟩,
    ⟨.symbol, "n"⟩, ⟨.openParen, "("⟩, ⟨.closeParen, ")"⟩, ⟨.closeParen, ")"⟩, ⟨.closeParen, ")"⟩,
    ⟨.closeParen, ")"⟩, ⟨.closeParen, ")"⟩] (by decide +kernel) rfl

theorem turningForm_declares : Evaluation.eval none 4 turningForm 0
    ((start false 1).stateOf ⟨0, 0, 0, .idle⟩) = .ok .nil declaredState := by rfl

theorem turningSession_eq :
    turningSession = (start false 1).update 0 ⟨0, 0, 0, .idle⟩ declaredState := by
  refine eval_ends rfl readAll_turningText (Action.ends_of_ok (a := .nil) ?_)
  exact (Action.bind_ok turningForm_declares).trans rfl

theorem turningSession_stateOf : turningSession.stateOf ⟨0, 0, 0, .idle⟩ = declaredState := by
  rw [turningSession_eq]
  rfl

theorem turnedSession_eq :
    turnedSession = turningSession.update 0 ⟨0, 0, 0, .idle⟩ turnedState := by
  have read : Expr.readAll "(m.turn)" = .ok [.list [.symbol "m.turn"]] :=
    Expr.readAll_of_tokens [⟨.openParen, "("⟩, ⟨.symbol, "m.turn"⟩, ⟨.closeParen, ")"⟩]
      (by decide +kernel) rfl
  have found : turningSession.interpreters[0]? = some ⟨0, 0, 0, .idle⟩ := by
    rw [turningSession_eq]
    rfl
  have turned : Evaluation.eval none 4 (.list [.symbol "m.turn"]) 0 declaredState =
      .ok (.list []) turnedState := by rfl
  refine eval_ends found read (Action.ends_of_ok (a := .list []) ?_)
  rw [turningSession_stateOf]
  exact (Action.bind_ok turned).trans rfl

theorem turnedSession_stateOf : turnedSession.stateOf ⟨0, 0, 0, .idle⟩ = turnedState := by
  rw [turnedSession_eq, turningSession_eq]
  rfl

/-- Right after the form both ways give the first value of the export. After a call of `turn` the
namespace still has the first, and the import gives the second. -/
theorem qualified_access_and_import_after_set :
    let i : Interpreter := ⟨0, 0, 0, .idle⟩
    let imports : Action Value := Action.openScope 0 >>= fun inner =>
      evalForms none 1 inner [.importDecl "m", .symbol "n"]
    (∃ r, Evaluation.eval none 1 (.symbol "m.n") 0 (turningSession.stateOf i) =
        .ok (.boolean true) (turningSession.stateOf i) ∧
      imports (turningSession.stateOf i) = .ok (.boolean true) r) ∧
    ∃ r, Evaluation.eval none 1 (.symbol "m.n") 0 (turnedSession.stateOf i) =
        .ok (.boolean true) (turnedSession.stateOf i) ∧
      imports (turnedSession.stateOf i) = .ok (.list []) r := by
  intro i imports
  have found : (start false 1).interpreters[0]? = some i := by rfl
  let c : Call := ⟨turningForm, 0, (start false 1).stateOf i⟩
  have call : c ∈ (start false 1).trace none 4 0 turningText := by
    rw [trace_eq found readAll_turningText, traceForms_singleton]
    exact List.mem_cons_self
  have finished : evalForms none 4 0 [turningForm] c.state ≠ .outOfFuel := by
    rw [evalForms, evalBody, Action.bind_ok turningForm_declares]
    intro lacking
    cases lacking
  have nothing_remains : RemainsOfForms none c 4 0 [turningForm] c.state [] := by
    have alone : sequenceCalls (Evaluation.eval none 4) 0 [turningForm] c.state = [] ++ c :: [] := by
      rfl
    exact .inside alone (.own 4)
  have nothing_spared : Spares none 1 "n" [] := by
    intro c remaining
    cases remaining
  have gives : ∀ t own calls, turningSession.Leads t → t.interpreters[0]? = some i →
      t.stateOf i = turningState own calls → ∃ now r, own.find? "n" = some now ∧
        Evaluation.eval none 1 (.symbol "m.n") 0 (t.stateOf i) =
          .ok (.boolean true) (t.stateOf i) ∧ imports (t.stateOf i) = .ok now r ∧
        (turningSession.LeadsSparing 1 "n" t → now = .boolean true) := by
    intro t own calls leads later state
    have registered : (t.stateOf i).registry.modules.find? "m" = some ⟨"m", 1, ["n", "turn"]⟩ := by
      rw [state]
      rfl
    have bound : ((t.stateOf i).heap.bindings 0).find? "m" =
        (declaredState.heap.bindings 0).find? "m" := by
      rw [state]
      rfl
    have plain : (t.stateOf i).heap.value? 0 "m.n" = none := by
      rw [state]
      rfl
    obtain ⟨old, now, r, before, after, qualified, imported, agree⟩ :=
      qualified_access_and_import (x := "n") (reachable_start false 1) found readAll_turningText
        finished call turningForm_declares leads later registered bound (by decide)
        List.mem_cons_self plain
    have first : old = .boolean true := Option.some.inj (before.symm.trans rfl)
    have second : own.find? "n" = some now := by
      change ((t.stateOf i).heap.bindings 1).find? "n" = some now at after
      rwa [state] at after
    rw [first] at qualified agree
    exact ⟨now, r, second, qualified none 0, imported none 0,
      agree [] nothing_remains nothing_spared⟩
  constructor
  · have later : turningSession.interpreters[0]? = some i := by
      rw [turningSession_eq]
      rfl
    obtain ⟨now, r, -, qualified, imported, agree⟩ :=
      gives turningSession turningMembers [] .refl later turningSession_stateOf
    rw [agree .refl] at imported
    exact ⟨r, qualified, imported⟩
  · have later : turnedSession.interpreters[0]? = some i := by
      rw [turnedSession_eq, turningSession_eq]
      rfl
    obtain ⟨now, r, turned, qualified, imported, -⟩ :=
      gives turnedSession _ _ (.single (.eval none 4 0 "(m.turn)")) later turnedSession_stateOf
    rw [← Option.some.inj turned] at imported
    exact ⟨r, qualified, imported⟩

/-- So qualified access and import differ in a session where the module is still registered, the
root still binds its name to the namespace of its form, and nothing hides the export. -/
theorem qualified_access_and_import_differ :
    let i : Interpreter := ⟨0, 0, 0, .idle⟩
    turnedSession.Reachable ∧ turnedSession.interpreters[0]? = some i ∧
      Expr.readAll turningText = .ok [turningForm] ∧
      (turnedSession.registryOf i).modules.find? "m" = some ⟨"m", 1, ["n", "turn"]⟩ ∧
      (turnedSession.heap.bindings 0).find? "m" = (turningSession.heap.bindings 0).find? "m" ∧
      turnedSession.heap.value? 0 "m.n" = none ∧
      Evaluation.eval none 1 (.symbol "m.n") 0 (turnedSession.stateOf i) =
        .ok (.boolean true) (turnedSession.stateOf i) ∧
      ∃ r, (Action.openScope 0 >>= fun inner =>
        evalForms none 1 inner [.importDecl "m", .symbol "n"]) (turnedSession.stateOf i) =
          .ok (.list []) r := by
  intro i
  have reachable : turningSession.Reachable :=
    (reachable_start false 1).tail (.eval none 4 0 turningText)
  refine ⟨reachable.tail (.eval none 4 0 "(m.turn)"), ?_, readAll_turningText, ?_, ?_, ?_, ?_, ?_⟩
  · rw [turnedSession_eq, turningSession_eq]
    rfl
  · rw [turnedSession_eq, turningSession_eq]
    rfl
  · rw [turnedSession_eq, turningSession_eq]
    rfl
  · rw [turnedSession_eq]
    rfl
  · rw [turnedSession_stateOf]
    rfl
  · rw [turnedSession_stateOf]
    exact ⟨_, rfl⟩

end Session

end ModularLisp
