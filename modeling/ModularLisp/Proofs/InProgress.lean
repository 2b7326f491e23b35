import ModularLisp.Proofs.Sessions

/-!
# What is in progress

Requires and loads nest, and an error may leave them from anywhere. However an evaluation ends, it
leaves the stacks of files in progress as it found them; so between evaluations nothing is in
progress, and the first require or load of the next one meets no circle.
-/

namespace ModularLisp

namespace Progress

theorem beginRequire_idle (key : String) : ∃ p, idle.beginRequire key = .ok p :=
  ⟨⟨[key], [], [[]]⟩, rfl⟩

theorem beginLoad_idle (key : String) : ∃ p, idle.beginLoad key = .ok p :=
  ⟨⟨[], [key], []⟩, rfl⟩

end Progress

namespace Evaluation

/-- However an evaluation ends, the files being required and loaded are those that were before, and
of the collected modules only the innermost list may have become longer, at its end. After every
evaluation of a text, failed or not, nothing is in progress, so no file is taken for a circle. -/
theorem eval_restores_progress :
    (∀ loader fuel e scope s t, (eval loader fuel e scope).Ends s t →
      s.progress.Kept t.progress) ∧
    ∀ session : Session, session.Reachable → ∀ i ∈ session.interpreters, i.progress = .idle ∧
      ∀ key, (∃ p, i.progress.beginRequire key = .ok p) ∧
        ∃ p, i.progress.beginLoad key = .ok p := by
  constructor
  · intro loader fuel e scope s t ended
    exact (eval_within loader fuel e scope s t ended).progress_kept
  · intro session reachable i member
    have idle := reachable.idle i member
    rw [idle]
    exact ⟨rfl, fun key => ⟨Progress.beginRequire_idle key, Progress.beginLoad_idle key⟩⟩

/-- A file that requires itself, required while other files are in progress; and a session after
such a failure. -/
theorem eval_restores_progress_of_circle :
    let l : Loader := ⟨.ok, fun _ => .ok [.requireDecl "a" .all]⟩
    let p : Progress := ⟨["b"], ["c"], [[]]⟩
    let s : State := ⟨⟨#[⟨.empty, []⟩]⟩, .empty, p, 0⟩
    let t : State := ⟨⟨#[⟨.empty, []⟩, ⟨.empty, [0]⟩]⟩, .empty, p, 0⟩
    let session : Session := ((Session.start false 1).eval (some l) 4 0 "(require \"a\")").2
    ((eval (some l) 4 (.requireDecl "a" .all) 0).Ends s t ∧ s.progress.Kept t.progress) ∧
      session.Reachable ∧ ⟨0, 0, 0, .idle⟩ ∈ session.interpreters ∧
        ∃ q, Progress.idle.beginRequire "a" = .ok q := by
  intro l p s t session
  have ended : (eval (some l) 4 (.requireDecl "a" .all) 0).Ends s t := by rfl
  have reachable : session.Reachable :=
    (Session.reachable_start false 1).tail (.eval (some l) 4 0 "(require \"a\")")
  have found : session.interpreters = #[⟨0, 0, 0, .idle⟩] := by decide +kernel
  have member : ⟨0, 0, 0, .idle⟩ ∈ session.interpreters := by simp [found]
  exact ⟨⟨ended, eval_restores_progress.1 _ _ _ _ s t ended⟩, reachable, member,
    ((eval_restores_progress.2 session reachable _ member).2 "a").1⟩

end Evaluation

end ModularLisp
