import ModularLisp.Proofs.Histories
import ModularLisp.Proofs.Search

/-!
# Nested requires and loads

At every beginning and end of an evaluation, however deep inside requires and loads, no file is
required twice or loaded twice at once, and every file being required has a collector of its own and
is not cached. So over finitely many sources requires and loads nest to a bounded depth.
-/

namespace ModularLisp

/-- Every cached file has declared a module. -/
def Registry.Filled (r : Registry) : Prop := ∀ key ms, r.files.find? key = some ms → ms ≠ []

namespace Registry

variable {r q : Registry} {key : String} {declared : List Module}

theorem filled_empty : empty.Filled := fun _ _ found => nomatch found

theorem Filled.mayCache (filled : r.Filled) (mayCache : r.MayCache key declared q) :
    q.Filled := by
  cases mayCache with
  | dropped => exact filled
  | cached some_declared =>
    intro other ms found
    rw [cacheFile, Bindings.find?_insert] at found
    split at found
    · cases found
      exact some_declared
    · exact filled other ms found

theorem MayCache.find?_of_ne (mayCache : r.MayCache key declared q) {other : String}
    (apart : key ≠ other) : q.files.find? other = r.files.find? other := by
  cases mayCache with
  | dropped => rfl
  | cached some_declared => rw [cacheFile, Bindings.find?_insert, if_neg apart]

end Registry

namespace Evolves

variable {scope : FrameId} {s t : State}

theorem filled (h : Evolves scope s t) (filled : s.registry.Filled) : t.registry.Filled := by
  induction h with
  | refl | define | set | stamp | declare => exact filled
  | trans _ _ ih₁ ih₂ => exact ih₂ (ih₁ filled)
  | inside _ _ _ _ ih => exact ih filled
  | require _ _ _ _ mayCache ih => exact (ih filled).mayCache mayCache
  | load _ _ _ ih => exact ih filled

/-- No file is cached while it is being required: a require inside that caches a file has begun it
itself. -/
theorem uncached (h : Evolves scope s t)
    (uncached : ∀ key ∈ s.progress.requiring, s.registry.files.find? key = none) :
    ∀ key ∈ s.progress.requiring, t.registry.files.find? key = none := by
  induction h with
  | refl | define | set | stamp | declare => exact uncached
  | trans first _ ih₁ ih₂ =>
    rw [first.progress_kept.requiring] at ih₂
    exact ih₂ (ih₁ uncached)
  | inside _ _ _ _ ih => exact ih uncached
  | @require scope s t key p q r declared fresh begun _ _ mayCache ih =>
    obtain ⟨unopened, rfl⟩ := Progress.beginRequire_ok begun
    intro other opened
    have apart : key ≠ other := fun same => unopened (same ▸ opened)
    rw [mayCache.find?_of_ne apart]
    refine ih (List.forall_mem_cons.mpr ⟨fresh, uncached⟩) other ?_
    exact List.mem_cons_of_mem _ opened
  | load begun _ _ ih =>
    obtain ⟨-, rfl⟩ := Progress.beginLoad_ok begun
    exact ih uncached

end Evolves

/-- What is in progress and what is cached fit together. -/
structure State.Orderly (loader : Option Loader) (s : State) : Prop where
  requiring : s.progress.requiring.Nodup
  loading : s.progress.loading.Nodup
  collectors : s.progress.collectors.length = s.progress.requiring.length
  uncached : ∀ key ∈ s.progress.requiring, s.registry.files.find? key = none
  filled : s.registry.Filled
  canonical : ∀ key, key ∈ s.progress.requiring ∨ key ∈ s.progress.loading →
    IsCanonical loader key

namespace State.Orderly

variable {loader : Option Loader} {scope : FrameId} {s t : State} {key : String} {p : Progress}

theorem of_idle (idle : s.progress = .idle) (filled : s.registry.Filled) : s.Orderly loader where
  requiring := by rw [idle]; exact List.nodup_nil
  loading := by rw [idle]; exact List.nodup_nil
  collectors := by rw [idle]; rfl
  uncached := by rw [idle]; exact nofun
  filled := filled
  canonical := by rw [idle]; exact nofun

theorem evolves (orderly : s.Orderly loader) (h : Evolves scope s t) : t.Orderly loader := by
  have kept := h.progress_kept
  obtain ⟨new, collectors⟩ := kept.collectors
  refine ⟨kept.requiring ▸ orderly.requiring, kept.loading ▸ orderly.loading, ?_, ?_,
    h.filled orderly.filled, ?_⟩
  · rw [collectors, List.length_modifyHead, kept.requiring, orderly.collectors]
  · rw [kept.requiring]
    exact h.uncached orderly.uncached
  · rw [kept.requiring, kept.loading]
    exact orderly.canonical

theorem beginRequire (orderly : s.Orderly loader) (canonical : IsCanonical loader key)
    (uncached : s.registry.files.find? key = none) (begun : s.progress.beginRequire key = .ok p) :
    State.Orderly loader { s with progress := p } := by
  obtain ⟨unopened, rfl⟩ := Progress.beginRequire_ok begun
  refine ⟨List.nodup_cons.mpr ⟨unopened, orderly.requiring⟩, orderly.loading, ?_,
    List.forall_mem_cons.mpr ⟨uncached, orderly.uncached⟩, orderly.filled, ?_⟩
  · exact congrArg (· + 1) orderly.collectors
  · rintro other (opened | loaded)
    · rcases List.mem_cons.mp opened with rfl | older
      · exact canonical
      · exact orderly.canonical other (Or.inl older)
    · exact orderly.canonical other (Or.inr loaded)

theorem beginLoad (orderly : s.Orderly loader) (canonical : IsCanonical loader key)
    (begun : s.progress.beginLoad key = .ok p) :
    State.Orderly loader { s with progress := p } := by
  obtain ⟨unopened, rfl⟩ := Progress.beginLoad_ok begun
  refine ⟨orderly.requiring, List.nodup_cons.mpr ⟨unopened, orderly.loading⟩, orderly.collectors,
    orderly.uncached, orderly.filled, ?_⟩
  rintro other (opened | loaded)
  · exact orderly.canonical other (Or.inl opened)
  · rcases List.mem_cons.mp loaded with rfl | older
    · exact canonical
    · exact orderly.canonical other (Or.inr older)

theorem invariant (loader : Option Loader) : Invariant loader (State.Orderly loader) where
  evolves := fun h orderly => orderly.evolves h
  inside := fun _ orderly => ⟨orderly.requiring, orderly.loading, orderly.collectors,
    orderly.uncached, orderly.filled, orderly.canonical⟩
  require := fun canonical uncached begun orderly => orderly.beginRequire canonical uncached begun
  load := fun canonical begun orderly => orderly.beginLoad canonical begun

end State.Orderly

namespace Loader

theorem mem_names_of_canonical {sources : Bindings String} {key : String}
    (canonical : IsCanonical (some (ofTable sources)) key) : key ∈ sources.names := by
  obtain ⟨l, filename, given, named⟩ := canonical
  cases given
  simp only [ofTable] at named
  split at named
  · rename_i source found
    cases named
    exact Bindings.binds_iff.mp (by rw [Bindings.binds, found]; rfl)
  · cases named

end Loader

/-- No more files are in progress at once, in either way, than there are sources. -/
theorem State.Orderly.depth_le {sources : Bindings String} {s : State}
    (orderly : s.Orderly (some (.ofTable sources))) :
    s.progress.requiring.length ≤ sources.names.length ∧
      s.progress.loading.length ≤ sources.names.length := by
  constructor
  · exact Search.length_le_of_nodup orderly.requiring fun key opened =>
      Loader.mem_names_of_canonical (orderly.canonical key (Or.inl opened))
  · exact Search.length_le_of_nodup orderly.loading fun key loaded =>
      Loader.mem_names_of_canonical (orderly.canonical key (Or.inr loaded))

namespace Session

theorem Reachable.orderly {s : Session} (reachable : s.Reachable) (loader : Option Loader) :
    ∀ i ∈ s.interpreters, (s.stateOf i).Orderly loader := by
  intro i member
  have filled := reachable.registries Registry.filled_empty Evolves.filled
  exact .of_idle (reachable.idle i member) (registryOf_keeps Registry.filled_empty filled i)

/-- Whenever an evaluation begins or ends, in any run of fresh interpreters, no file is being
required twice or loaded twice, there is one collector for each file being required, no such file is
cached, and every cached file has a module. So over a table no more requires, and no more loads, are
nested than there are sources. -/
theorem progress_orderly (s : Session) (reachable : s.Reachable) (loader : Option Loader)
    (fuel index : Nat) (source : String) : ∀ t ∈ s.history loader fuel index source,
      t.Orderly loader ∧ ∀ sources : Bindings String, loader = some (.ofTable sources) →
        t.progress.requiring.length ≤ sources.names.length ∧
          t.progress.loading.length ≤ sources.names.length := by
  intro t member
  have orderly : t.Orderly loader :=
    (State.Orderly.invariant loader).session_keeps (reachable.orderly loader) fuel index source t
      member
  refine ⟨orderly, fun sources given => ?_⟩
  subst given
  exact orderly.depth_le

/-- In the middle of a load inside a require: both files are in progress, one in each way. -/
theorem progress_orderly_inside_load :
    let sources : Bindings String := .ofList
      [("a", "(load \"b\") (module m (export x) (define x true))"), ("b", "true")]
    let l : Loader := .ofTable sources
    (start false 1).Reachable ∧ ∃ t ∈ (start false 1).history (some l) 4 0 "(require \"a\")",
      t.progress = ⟨["a"], ["b"], [[]]⟩ ∧ t.Orderly (some l) ∧
        t.progress.requiring.length ≤ sources.names.length := by
  intro sources l
  have reachable : (start false 1).Reachable := reachable_start false 1
  have inside : (⟨["a"], ["b"], [[]]⟩ : Progress) ∈
      ((start false 1).history (some l) 4 0 "(require \"a\")").map (·.progress) := by
    decide +kernel
  obtain ⟨t, member, opened⟩ := List.mem_map.mp inside
  have held := progress_orderly _ reachable (some l) 4 0 "(require \"a\")" t member
  exact ⟨reachable, t, member, opened, held.1, (held.2 sources rfl).1⟩

end Session

end ModularLisp
