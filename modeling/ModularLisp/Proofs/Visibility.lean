import ModularLisp.Proofs.Requires

/-!
# Exports made visible

What is left of a require once it has its modules: their exports become visible as the require says.
Bound modules have exports under names that are not empty, so this fails only for a name asked for
by `:only` that no module exports, or for an alias without a name, which no text reads as.
-/

namespace ModularLisp

theorem Bindings.ne_of_mem {α : Type} {b : Bindings α} (named : b.find? "" = none) :
    ∀ entry ∈ b.entries, entry.1 ≠ "" := by
  intro entry member empty
  have bound : b.binds "" = true := binds_iff.mpr (empty ▸ List.mem_map_of_mem member)
  rw [binds, named] at bound
  cases bound

/-- What a require may be refused for when its file has declared the modules `ms`. -/
inductive Visibility.Refused (filename : String) (ms : List Module) : Visibility → Error → Prop
  | notExported {names : List String} {name : String} (asked : name ∈ names)
    (missing : ∀ m ∈ ms, name ∉ m.exports) :
    Refused filename ms (.only names) (.eval (.fileNotExporting filename name))
  | noAlias : Refused filename ms (.qualified "") (.eval (.undefinable (.text "")))

namespace Evaluation

open ModularLisp.Action

section Choice

variable {filename : String} {exports : Bindings Value} {names : List String}

theorem choose_error {e : EvalError} (failed : choose filename exports names = .error e) :
    ∃ name ∈ names, exports.find? name = none ∧ e = .fileNotExporting filename name := by
  obtain ⟨name, asked, b, failed⟩ := foldlM_error failed
  cases found : exports.find? name with
  | some v => rw [found] at failed; cases failed
  | none =>
    rw [found] at failed
    cases failed
    exact ⟨name, asked, found, rfl⟩

theorem choose_named (named : exports.find? "" = none) {chosen : Bindings Value}
    (done : choose filename exports names = .ok chosen) : chosen.find? "" = none := by
  refine foldlM_keeps (P := fun b => b.find? "" = none) ?_ rfl done
  intro name _ b b' kept stepped
  cases found : exports.find? name with
  | none => rw [found] at stepped; cases stepped
  | some v =>
    rw [found] at stepped
    cases stepped
    refine Bindings.find?_empty_name_insert ?_ v kept
    intro empty
    rw [empty, named] at found
    cases found

end Choice

variable {s : State} {ms : List Module} {exports : Bindings Value}

theorem makeVisible_cases (named : exports.find? "" = none) (filename : String)
    (visibility : Visibility) (scope : FrameId) :
    (∃ u, makeVisible filename visibility exports scope s = .ok () u) ∨
      ∃ e u, makeVisible filename visibility exports scope s = .error e u ∧
        ((∃ names, visibility = .only names ∧ ∃ name ∈ names, exports.find? name = none ∧
            e = .eval (.fileNotExporting filename name)) ∨
          visibility = .qualified "" ∧ e = .eval (.undefinable (.text ""))) := by
  cases visibility with
  | all => exact Or.inl ⟨_, defineAll_ok (Bindings.ne_of_mem named) scope s⟩
  | qualified qualifier =>
    have made : makeNameSpace qualifier exports s =
        .ok (.nameSpace s.fresh qualifier exports) { s with fresh := s.fresh + 1 } := rfl
    rw [makeVisible, bind_ok made]
    by_cases empty : qualifier = ""
    · subst empty
      exact Or.inr ⟨_, _, rfl, Or.inr ⟨rfl, rfl⟩⟩
    · have labelled : (Label.text qualifier).name? = some qualifier := if_neg empty
      simp only [define, labelled]
      exact Or.inl ⟨_, rfl⟩
  | only names =>
    cases chosen : choose filename exports names with
    | error e =>
      obtain ⟨name, asked, missing, rfl⟩ := choose_error chosen
      have stopped : lift (choose filename exports names) s =
          .error (.eval (.fileNotExporting filename name)) s := by rw [chosen]; rfl
      rw [makeVisible, bind_error stopped]
      exact Or.inr ⟨_, _, rfl, Or.inl ⟨names, rfl, name, asked, missing, rfl⟩⟩
    | ok found =>
      have read : lift (choose filename exports names) s = .ok found s := by rw [chosen]; rfl
      rw [makeVisible, bind_ok read]
      exact Or.inl ⟨_, defineAll_ok (Bindings.ne_of_mem (choose_named named chosen)) scope s⟩

/-- A require that has its modules succeeds or is refused. -/
theorem shareExports_cases (bound : ∀ m ∈ ms, m.Bound s.heap) (filename : String)
    (visibility : Visibility) (scope : FrameId) :
    (∃ u, shareExports filename visibility ms scope s = .ok .nil u) ∨
      ∃ e u, shareExports filename visibility ms scope s = .error e u ∧
        visibility.Refused filename ms e := by
  obtain ⟨exports, exported, -⟩ := Module.exportedByAll_of_bound bound
  have named := Module.exported_named bound exported
  have read : Action.exported ms s = .ok exports s := exported_eq_ok.mpr ⟨exported, rfl⟩
  rw [shareExports, bind_ok read]
  rcases makeVisible_cases named filename visibility scope with
    ⟨u, done⟩ | ⟨e, u, failed, reason⟩
  · rw [bind_ok done]
    exact Or.inl ⟨u, rfl⟩
  · rw [bind_error failed]
    refine Or.inr ⟨e, u, rfl, ?_⟩
    rcases reason with ⟨names, rfl, name, asked, missing, rfl⟩ | ⟨rfl, rfl⟩
    · refine .notExported asked fun m member listed => ?_
      have found := (Module.binds_exportedByAll bound exported name).mpr ⟨m, member, listed⟩
      rw [Bindings.binds, missing] at found
      cases found
    · exact .noAlias

end Evaluation

end ModularLisp
