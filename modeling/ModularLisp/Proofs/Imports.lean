import ModularLisp.Proofs.Requires

/-!
# Imports in reachable sessions

In every reachable session the registries hold bound modules only. So an import of a registered
name succeeds wherever it stands, and no name is ever unregistered.
-/

namespace ModularLisp

namespace Session

structure Sound (s : Session) : Prop where
  named : s.heap.Named
  registries : ∀ r ∈ s.registries, r.Sound s.heap

theorem sound_empty : Sound empty where
  named := fun _ => rfl
  registries := fun r member => absurd member (Array.not_mem_empty r)

theorem builtins_named (owner : Stamp) : (Builtin.bindings owner).find? "" = none := by
  have distinct : (Builtin.all.map Builtin.name).Nodup := by decide
  refine (Bindings.find?_insertAll .empty (by simpa [Function.comp_def] using distinct) "").trans ?_
  simp [Builtin.all, Builtin.name, Bindings.findIn]

theorem Sound.registryOf {s : Session} (sound : s.Sound) (i : Interpreter) :
    (s.registryOf i).Sound s.heap :=
  registryOf_keeps (Registry.sound_empty s.heap) sound.registries i

theorem Sound.stateOf {s : Session} (sound : s.Sound) {i : Interpreter}
    (idle : i.progress = .idle) : (s.stateOf i).Sound where
  named := sound.named
  registry := sound.registryOf i
  collected := by
    intro ms collected
    change ms ∈ i.progress.collectors at collected
    rw [idle] at collected
    cases collected

theorem Step.keeps_sound {s t : Session} (step : Step s t) (sound : s.Sound)
    (idle : ∀ i ∈ s.interpreters, i.progress = .idle) : t.Sound := by
  cases step with
  | addRegistry =>
    refine ⟨sound.named, fun r member => ?_⟩
    rcases Array.mem_push.mp member with older | rfl
    · exact sound.registries r older
    · exact Registry.sound_empty s.heap
  | addInterpreter registry old =>
    exact ⟨sound.named.push (builtins_named s.fresh),
      fun r member => (sound.registries r member).kept (.push 0 s.heap _)⟩
  | eval loader fuel index source =>
    rcases eval_cases loader fuel s index source with same | ⟨i, t, found, evolves, after⟩
    · rwa [same]
    · rw [after]
      have ended := evolves.sound (sound.stateOf (idle i (Array.mem_of_getElem? found)))
      refine ⟨ended.named, fun r member => ?_⟩
      rcases Array.mem_or_eq_of_mem_setIfInBounds member with older | rfl
      · exact (sound.registries r older).kept evolves.heap_kept
      · exact ended.registry

theorem Reachable.sound {s : Session} (reachable : s.Reachable) : s.Sound := by
  induction reachable with
  | refl => exact sound_empty
  | tail before step ih => exact step.keeps_sound ih (Reachable.idle before)

/-- Registry `k` exists and knows a module of that name. -/
def Knows (s : Session) (k : Nat) (name : String) : Prop :=
  ∃ r, s.registries[k]? = some r ∧ r.modules.binds name = true

theorem Step.keeps_known {s t : Session} (step : Step s t) {k : Nat} {name : String}
    (known : s.Knows k name) : t.Knows k name := by
  obtain ⟨r, found, registered⟩ := known
  rcases step.registry_cases found with same | ⟨i, -, u, evolves, rfl, changed⟩
  · exact ⟨r, same, registered⟩
  · exact ⟨u.registry, changed, evolves.stays_registered registered⟩

theorem Leads.keeps_known {s t : Session} (leads : s.Leads t) {k : Nat} {name : String}
    (known : s.Knows k name) : t.Knows k name := by
  induction leads with
  | refl => exact known
  | tail _ step ih => exact step.keeps_known ih

/-- In every reachable session a module that a registry holds, by name or for a file, has all of its
exports bound in its own frame, so reading them never misses one; a registered name stays registered
whatever is evaluated later; and its import succeeds from every scope. -/
theorem registered_modules_importable (s : Session) (reachable : s.Reachable) :
    (∀ r ∈ s.registries, ∀ m, r.Holds m → m.Bound s.heap ∧
      ∃ b, m.exported s.heap = .ok b ∧ ∀ x, b.binds x = true ↔ x ∈ m.exports) ∧
    (∀ t, s.Leads t → ∀ k name, s.Knows k name → t.Knows k name) ∧
    ∀ i ∈ s.interpreters, ∀ name m, (s.registryOf i).modules.find? name = some m →
      ∀ loader fuel scope, ∃ t,
        Evaluation.eval loader (fuel + 1) (.importDecl name) scope (s.stateOf i) = .ok .nil t ∧
        (scope < s.heap.next → ∀ x ∈ m.exports,
          (t.heap.bindings scope).find? x = (s.heap.bindings m.scope).find? x) := by
  have sound := reachable.sound
  refine ⟨?_, fun t leads k name => leads.keeps_known, ?_⟩
  · intro r member m holds
    have bound := sound.registries r member m holds
    obtain ⟨b, exported, -, finds⟩ := bound.exported
    refine ⟨bound, b, exported, fun x => ?_⟩
    rw [Bindings.binds, finds]
    by_cases listed : x ∈ m.exports
    · simpa [listed, Bindings.binds] using (bound x listed).2
    · simp [listed]
  · intro i _ name m registered loader fuel scope
    have bound := sound.registryOf i m (.named registered)
    exact Evaluation.evalImport_ok (s := s.stateOf i) registered bound scope

/-- A module whose redefinition fails is still there to be imported, now and after a further
failure. -/
theorem registered_modules_importable_after_failure :
    let source := "(module m (export a) (define a \"x\"))"
    let s : Session := ((start false 1).run none 5 [(0, source), (0, "(module m (export b) a)")]).2
    let t : Session := (s.eval none 5 0 "(set a").2
    let i : Interpreter := ⟨0, 0, 0, .idle⟩
    let m : Module := ⟨"m", 1, ["a"]⟩
    s.Reachable ∧ i ∈ s.interpreters ∧ (s.registryOf i).modules.find? "m" = some m ∧
      m.Bound s.heap ∧ t.Knows 0 "m" ∧
      ∃ u, Evaluation.eval none 1 (.importDecl "m") 0 (s.stateOf i) = .ok .nil u := by
  intro source s t i m
  have reachable : s.Reachable := (reachable_start false 1).trans (leads_run none 5 _ _)
  have interpreters : s.interpreters = #[i] := by decide +kernel
  have member : i ∈ s.interpreters := by simp [interpreters]
  have found : (s.registryOf i).modules.find? "m" = some m := by decide +kernel
  have size : s.registries.size = 1 := by decide +kernel
  have one : s.registries[0]? = some (s.registryOf i) := by
    simp [registryOf, i, size]
  have known : s.Knows 0 "m" := ⟨_, one, by rw [Bindings.binds, found]; rfl⟩
  have later : s.Leads t := .single (.eval none 5 0 "(set a")
  obtain ⟨held, kept, imported⟩ := registered_modules_importable s reachable
  obtain ⟨u, ok, -⟩ := imported i member "m" m found none 0 0
  exact ⟨reachable, member, found, (held _ (Array.mem_of_getElem? one) m (.named found)).1,
    kept t later 0 "m" known, u, ok⟩

end Session

end ModularLisp
