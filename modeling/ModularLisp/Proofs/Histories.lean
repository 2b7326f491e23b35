import ModularLisp.Proofs.Sessions

/-!
# Histories

The history of an evaluation lists the states in which it and the evaluations inside it begin and
end. An invariant is kept by everything that lies between two of them: by what a step does itself
before, between and after its calls. So it holds all along the history, also of an evaluation that
fails midway or never comes to an end.
-/

namespace ModularLisp

namespace Evaluation

/-- The states at the beginning and the end of an evaluation and of all evaluations inside it, in
the order of time. One that lacks fuel has no end. -/
def history (loader : Option Loader) : (fuel : Nat) → Call → List State
  | 0, c => [c.state]
  | fuel + 1, c =>
    c.state :: (stepCalls loader (eval loader fuel) c.expr c.scope c.state).flatMap
      (history loader fuel) ++ (c.answer (eval loader (fuel + 1))).state?.toList

/-- The history of the evaluation of forms one after the other. -/
def historyOfForms (loader : Option Loader) (fuel : Nat) (scope : FrameId) (forms : List Expr)
    (s : State) : List State :=
  (sequenceCalls (eval loader fuel) scope forms s).flatMap (history loader fuel)

end Evaluation

/-- The states at the beginning and the end of every evaluation for a source text. -/
def Session.history (loader : Option Loader) (fuel : Nat) (s : Session) (index : Nat)
    (source : String) : List State :=
  match s.interpreters[index]?, Expr.readAll source with
  | some i, .ok forms => Evaluation.historyOfForms loader fuel i.root forms (s.stateOf i)
  | _, _ => []

/-- A property of states that every change keeps, and every change on the way to a call: a frame
for the call, and a file that begins to be required or loaded. -/
structure Invariant (loader : Option Loader) (I : State → Prop) : Prop where
  evolves : ∀ {scope s t}, Evolves scope s t → I s → I t
  inside : ∀ {s : State} {f : Frame}, f.bindings.find? "" = none → I s →
    I { s with heap := s.heap.push f }
  require : ∀ {s : State} {key p}, IsCanonical loader key → s.registry.files.find? key = none →
    s.progress.beginRequire key = .ok p → I s → I { s with progress := p }
  load : ∀ {s : State} {key p}, IsCanonical loader key → s.progress.beginLoad key = .ok p → I s →
    I { s with progress := p }

namespace Invariant

variable {loader : Option Loader} {I : State → Prop} {ev : Evaluator}
  {deeds : Deeds} {scope : FrameId} {s : State} {cs : List Call}
  {r : Option State}

/-- Every call of a course begins in a state of the invariant. -/
theorem calls_keep (inv : Invariant loader I) (parts : ∀ e scope, (ev e scope).Within scope)
    (h : Course loader ev deeds scope s cs r) (start : I s) : ∀ c ∈ cs, I c.state := by
  induction h with
  | stay | stall | define | set | stamp | declare => exact nofun
  | andThen first _ ih₁ ih₂ =>
    have between := inv.evolves (first.evolves parts rfl) start
    exact List.forall_mem_append.mpr ⟨ih₁ start, ih₂ between⟩
  | call e scope s => exact fun c member => List.mem_singleton.mp member ▸ start
  | inside scope f named _ ih => exact ih (inv.inside named start)
  | require canonical uncached begun _ _ _ _ ih =>
    exact ih (inv.require canonical uncached begun start)
  | stallInRequire canonical uncached begun _ ih =>
    exact ih (inv.require canonical uncached begun start)
  | load canonical begun _ _ ih => exact ih (inv.load canonical begun start)
  | stallInLoad canonical begun _ ih => exact ih (inv.load canonical begun start)

/-- The run lemma: an invariant of the first state holds in every state of the history. -/
theorem history_keeps (inv : Invariant loader I) (fuel : Nat) (c : Call) (start : I c.state) :
    ∀ t ∈ Evaluation.history loader fuel c, I t := by
  induction fuel generalizing c with
  | zero => exact fun t member => List.mem_singleton.mp member ▸ start
  | succ fuel ih =>
    intro t member
    have within := Evaluation.eval_within loader fuel
    have course := Evaluation.step_follows within loader c.expr c.scope c.state
    rcases List.mem_cons.mp member with rfl | later
    · exact start
    rcases List.mem_append.mp later with nested | last
    · obtain ⟨d, call, member⟩ := List.mem_flatMap.mp nested
      exact ih d (inv.calls_keep within course start d call) t member
    · have ended : (Evaluation.eval loader (fuel + 1) c.expr c.scope).Ends c.state t :=
        Option.mem_toList.mp last
      exact inv.evolves (Evaluation.eval_within loader (fuel + 1) _ _ _ t ended) start

theorem historyOfForms_keeps (inv : Invariant loader I) (fuel : Nat) (scope : FrameId)
    (forms : List Expr) (s : State) (start : I s) :
    ∀ t ∈ Evaluation.historyOfForms loader fuel scope forms s, I t := by
  have course := Evaluation.evalForms_follows loader fuel scope forms s
  intro t member
  obtain ⟨d, call, member⟩ := List.mem_flatMap.mp member
  have begun := inv.calls_keep (Evaluation.eval_within loader fuel) course start d call
  exact inv.history_keeps fuel d begun t member

/-- What holds of the state that an interpreter begins with holds all along its evaluation. -/
theorem session_keeps (inv : Invariant loader I) {session : Session}
    (start : ∀ i ∈ session.interpreters, I (session.stateOf i)) (fuel index : Nat)
    (source : String) : ∀ t ∈ session.history loader fuel index source, I t := by
  simp only [Session.history]
  split
  · rename_i i forms found read
    exact inv.historyOfForms_keeps fuel i.root forms _ (start i (Array.mem_of_getElem? found))
  · exact nofun

end Invariant

end ModularLisp
