import ModularLisp.Proofs.Ending

/-!
# What evaluation can do to the state

`Evolves scope s t` lists every change that evaluation in a scope can make: it binds and sets names
as seen from the scope, opens frames and works inside them, registers modules, and requires and
loads files. Whatever the program, an evaluation that ends has evolved its state so; what runs keep
is proved below by induction on this relation alone.
-/

namespace ModularLisp

/-- What is in progress is the same; the innermost collector may have grown at its end. -/
structure Progress.Kept (p q : Progress) : Prop where
  requiring : q.requiring = p.requiring
  loading : q.loading = p.loading
  collectors : ∃ new, q.collectors = p.collectors.modifyHead (· ++ new)

namespace Progress

theorem Kept.refl (p : Progress) : Kept p p where
  requiring := rfl
  loading := rfl
  collectors := ⟨[], by cases p.collectors <;> simp⟩

theorem Kept.trans {p q r : Progress} (h : Kept p q) (k : Kept q r) : Kept p r where
  requiring := k.requiring.trans h.requiring
  loading := k.loading.trans h.loading
  collectors := by
    obtain ⟨new, hnew⟩ := h.collectors
    obtain ⟨more, hmore⟩ := k.collectors
    refine ⟨new ++ more, ?_⟩
    rw [hmore, hnew]
    cases p.collectors <;> simp

theorem kept_collect (p : Progress) (m : Module) : Kept p (p.collect m) := by
  obtain ⟨requiring, loading, collectors⟩ := p
  cases collectors with
  | nil => exact Kept.refl _
  | cons declared rest => exact ⟨rfl, rfl, [m], rfl⟩

theorem head?_collect {p : Progress} {declared : List Module}
    (innermost : p.collectors.head? = some declared) (m : Module) :
    (p.collect m).collectors.head? = some (declared ++ [m]) := by
  obtain ⟨requiring, loading, collectors⟩ := p
  cases collectors with
  | nil => cases innermost
  | cons first rest =>
    cases innermost
    rfl

theorem beginRequire_ok {p q : Progress} {key : String} (h : p.beginRequire key = .ok q) :
    key ∉ p.requiring ∧
      q = { p with requiring := key :: p.requiring, collectors := [] :: p.collectors } := by
  simp only [beginRequire] at h
  split at h
  · cases h
  · exact ⟨by assumption, (Except.ok.inj h).symm⟩

theorem beginLoad_ok {p q : Progress} {key : String} (h : p.beginLoad key = .ok q) :
    key ∉ p.loading ∧ q = { p with loading := key :: p.loading } := by
  simp only [beginLoad] at h
  split at h
  · cases h
  · exact ⟨by assumption, (Except.ok.inj h).symm⟩

theorem endRequire_ok {p q : Progress} {declared : List Module}
    (h : p.endRequire = .ok (declared, q)) : p.collectors = declared :: q.collectors := by
  simp only [endRequire] at h
  split at h
  · rename_i collected
    cases h
    exact collected
  · cases h

theorem endLoad_ok {p q : Progress} (h : p.endLoad = .ok q) : q.collectors = p.collectors := by
  simp only [endLoad] at h
  split at h
  · cases h
    rfl
  · cases h

/-- When the work inside keeps what is in progress, the end of a require finds what its beginning
left and restores all of it. -/
theorem endRequire_of_kept {p q r : Progress} {key : String} (begun : p.beginRequire key = .ok q)
    (kept : Kept q r) : ∃ declared, r.collectors = declared :: p.collectors ∧
      r.endRequire = .ok (declared, p) := by
  obtain ⟨-, rfl⟩ := beginRequire_ok begun
  obtain ⟨new, hnew⟩ := kept.collectors
  have hr : r.requiring = key :: p.requiring := kept.requiring
  have hc : r.collectors = new :: p.collectors := hnew
  have hl : r.loading = p.loading := kept.loading
  refine ⟨new, hc, ?_⟩
  simp only [endRequire, hr, hc, hl]

theorem endLoad_of_kept {p q r : Progress} {key : String} (begun : p.beginLoad key = .ok q)
    (kept : Kept q r) : ∃ left, r.endLoad = .ok left ∧ Kept p left := by
  obtain ⟨-, rfl⟩ := beginLoad_ok begun
  have hl : r.loading = key :: p.loading := kept.loading
  refine ⟨{ r with loading := p.loading }, by simp only [endLoad, hl], ?_⟩
  exact ⟨kept.requiring, rfl, kept.collectors⟩

end Progress

/-- The end of a first require may leave its file cached, with the modules declared for it. -/
inductive Registry.MayCache (key : String) (declared : List Module) (r : Registry) :
    Registry → Prop
  | dropped : MayCache key declared r r
  | cached (some_declared : declared ≠ []) : MayCache key declared r (r.cacheFile key declared)

inductive Evolves : FrameId → State → State → Prop
  | refl (scope : FrameId) (s : State) : Evolves scope s s
  | trans {scope : FrameId} {s t u : State} :
    Evolves scope s t → Evolves scope t u → Evolves scope s u
  | define (scope : FrameId) (s : State) {name : String} (v : Value) (nonempty : name ≠ "") :
    Evolves scope s { s with heap := s.heap.bind scope name v }
  | set {scope : FrameId} {s : State} {name : String} {i : FrameId} (v : Value)
    (seen : s.heap.find? scope name = some i) :
    Evolves scope s { s with heap := s.heap.bind i name v }
  | stamp (scope : FrameId) (s : State) : Evolves scope s { s with fresh := s.fresh + 1 }
  | inside (scope : FrameId) {s t : State} (f : Frame) (named : f.bindings.find? "" = none) :
    Evolves s.heap.next { s with heap := s.heap.push f } t → Evolves scope s t
  | declare (scope : FrameId) (s : State) (m : Module)
    (bound : ∀ name ∈ m.exports, (s.heap.bindings m.scope).binds name = true) :
    Evolves scope s
      { s with registry := s.registry.register m, progress := s.progress.collect m }
  | require {scope : FrameId} {s t : State} {key : String} {p q : Progress} {r : Registry}
    {declared : List Module} (uncached : s.registry.files.find? key = none)
    (begun : s.progress.beginRequire key = .ok p) :
    Evolves scope { s with progress := p } t → t.progress.endRequire = .ok (declared, q) →
    t.registry.MayCache key declared r → Evolves scope s { t with progress := q, registry := r }
  | load {scope : FrameId} {s t : State} {key : String} {p q : Progress}
    (begun : s.progress.beginLoad key = .ok p) :
    Evolves scope { s with progress := p } t → t.progress.endLoad = .ok q →
    Evolves scope s { t with progress := q }

namespace Evolves

variable {scope : FrameId} {s t : State}

/-- Every push on a stack of files in progress is undone by its pop. -/
theorem progress_kept (h : Evolves scope s t) : s.progress.Kept t.progress := by
  induction h with
  | refl => exact .refl _
  | trans _ _ ih₁ ih₂ => exact ih₁.trans ih₂
  | define | set | stamp => exact .refl _
  | inside _ _ _ _ ih => exact ih
  | declare _ s m => exact Progress.kept_collect s.progress m
  | require _ begun _ ended _ ih =>
    obtain ⟨declared, -, restored⟩ := Progress.endRequire_of_kept begun ih
    cases restored.symm.trans ended
    exact .refl _
  | load begun _ ended ih =>
    obtain ⟨left, restored, kept⟩ := Progress.endLoad_of_kept begun ih
    cases restored.symm.trans ended
    exact kept

end Evolves

end ModularLisp
