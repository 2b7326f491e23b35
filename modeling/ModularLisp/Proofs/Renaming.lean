import ModularLisp.Proofs.Counterparts
import ModularLisp.Proofs.Filenames

/-!
# States up to the names of files

Two loaders may know one file under two names. The cache of required files and the lists of files in
progress of two runs then differ, but only by these names: they are renamed one to one, and all else
is the same. Actions that come out alike from such states may fail with errors that differ where an
error names files.
-/

namespace ModularLisp

open List

variable {α β : Type}

/-- The kinds of errors whose messages name files, or the places where files are searched. -/
def ErrorKind.NamesFiles (k : ErrorKind) : Prop :=
  k = .loader ∨ k = .circularRequire ∨ k = .circularLoad

/-- Errors of one kind; they may differ if this kind names files. -/
structure Error.Agrees (e e' : Error) : Prop where
  kind : e.kind = e'.kind
  same : ¬ e.kind.NamesFiles → e = e'

theorem Error.Agrees.refl (e : Error) : e.Agrees e := ⟨rfl, fun _ => rfl⟩

theorem Error.Agrees.naming {e e' : Error} (kind : e.kind = e'.kind) (names : e.kind.NamesFiles) :
    e.Agrees e' := ⟨kind, fun other => absurd names other⟩

/-- The second name of each file, and the file names that programs ask for. -/
structure Renaming where
  key : String → String
  injective : Function.Injective key
  files : String → Prop

structure Registry.Renamed (r : Renaming) (x y : Registry) : Prop where
  modules : x.modules = y.modules
  files : ∀ key, x.files.find? key = y.files.find? (r.key key)

structure Progress.Renamed (r : Renaming) (p q : Progress) : Prop where
  requiring : p.requiring.map r.key = q.requiring
  loading : p.loading.map r.key = q.loading
  collectors : p.collectors = q.collectors

structure State.Renamed (r : Renaming) (s t : State) : Prop where
  heap : s.heap = t.heap
  fresh : s.fresh = t.fresh
  registry : s.registry.Renamed r t.registry
  progress : s.progress.Renamed r t.progress
  code : s.heap.All (Value.AsksFor r.files)

section States

variable {r : Renaming}

theorem Registry.Renamed.register {x y : Registry} (registries : x.Renamed r y) (m : Module) :
    (x.register m).Renamed r (y.register m) where
  modules := by rw [Registry.register, Registry.register, registries.modules]
  files := registries.files

/-- The keys stay apart because they are renamed one to one. -/
theorem Registry.Renamed.cacheFile {x y : Registry} (registries : x.Renamed r y) (key : String)
    (ms : List Module) : (x.cacheFile key ms).Renamed r (y.cacheFile (r.key key) ms) where
  modules := registries.modules
  files other := by
    simp only [Registry.cacheFile, Bindings.find?_insert, registries.files, r.injective.eq_iff]

namespace Progress.Renamed

variable {p q : Progress}

theorem collect (renamed : p.Renamed r q) (m : Module) : (p.collect m).Renamed r (q.collect m) := by
  obtain ⟨requiring, loading, collectors⟩ := p
  obtain ⟨requiring', loading', collectors'⟩ := q
  obtain ⟨required, loaded, same⟩ := renamed
  cases same
  cases collectors with
  | nil => exact ⟨required, loaded, rfl⟩
  | cons => exact ⟨required, loaded, rfl⟩

theorem requiring_iff (renamed : p.Renamed r q) (key : String) :
    r.key key ∈ q.requiring ↔ key ∈ p.requiring := by
  rw [← renamed.requiring, mem_map_of_injective r.injective]

theorem loading_iff (renamed : p.Renamed r q) (key : String) :
    r.key key ∈ q.loading ↔ key ∈ p.loading := by
  rw [← renamed.loading, mem_map_of_injective r.injective]

/-- If nothing is in progress in the first run, nothing is in the second one. -/
theorem idle (renamed : p.Renamed r q) (idle : p = .idle) : q = .idle := by
  obtain ⟨requiring, loading, collectors⟩ := q
  obtain ⟨required, loaded, same⟩ := renamed
  subst idle
  cases required
  cases loaded
  cases same
  rfl

end Progress.Renamed

theorem State.Renamed.withHeap {s t : State} (states : s.Renamed r t) {h k : Heap} (same : h = k)
    (code : h.All (Value.AsksFor r.files)) :
    ({ s with heap := h } : State).Renamed r { t with heap := k } :=
  { states with heap := same, code := code }

end States

/-- The same value, which is as it should be, or errors that agree, or no fuel in either run. -/
inductive Result.Renamed (r : Renaming) (good : α → Prop) : Result α → Result α → Prop
  | ok {a : α} {s t : State} (states : s.Renamed r t) (fine : good a) :
    Renamed r good (.ok a s) (.ok a t)
  | error {e e' : Error} {s t : State} (states : s.Renamed r t) (errors : e.Agrees e') :
    Renamed r good (.error e s) (.error e' t)
  | outOfFuel : Renamed r good .outOfFuel .outOfFuel

def Action.Renamed (r : Renaming) (good : α → Prop) (x y : Action α) : Prop :=
  ∀ s t, s.Renamed r t → (x s).Renamed r good (y t)

/-- Nothing is asked of a value. -/
def Any (_ : α) : Prop := True

namespace Action

variable {r : Renaming} {good : α → Prop} {x y : Action α} {s t : State}

theorem renamed_pure {a : α} (fine : good a) :
    (Pure.pure a : Action α).Renamed r good (Pure.pure a) :=
  fun _ _ states => .ok states fine

theorem renamed_throw {e e' : Error} (errors : e.Agrees e') :
    (throw e : Action α).Renamed r good (throw e') :=
  fun _ _ states => .error states errors

theorem Renamed.bind {good' : β → Prop} {f g : α → Action β} (first : x.Renamed r good y)
    (later : ∀ a, good a → (f a).Renamed r good' (g a)) :
    (x >>= f).Renamed r good' (y >>= g) := by
  intro s t states
  have one := first s t states
  generalize hx : x s = rx at one
  generalize hy : y t = ry at one
  cases one with
  | ok states fine =>
    rw [bind_ok hx, bind_ok hy]
    exact later _ fine _ _ states
  | error states errors =>
    rw [bind_error hx, bind_error hy]
    exact .error states errors
  | outOfFuel =>
    rw [bind_outOfFuel hx, bind_outOfFuel hy]
    exact .outOfFuel

theorem lookup_renamed (scope : FrameId) (name : String) :
    (lookup scope name).Renamed r (Value.AsksFor r.files) (lookup scope name) := by
  intro s t states
  rw [lookup, lookup, ← states.heap]
  cases found : s.heap.lookup scope name with
  | ok v => exact .ok states (states.code.lookup Value.AsksFor.members found)
  | error e => exact .error states (.refl _)

theorem rootOf_renamed (scope : FrameId) : (rootOf scope).Renamed r Any (rootOf scope) := by
  intro s t states
  rw [rootOf, rootOf, ← states.heap]
  exact .ok states trivial

theorem undefinedIn_renamed (scope : FrameId) (names : List String) :
    (undefinedIn scope names).Renamed r Any (undefinedIn scope names) := by
  intro s t states
  rw [undefinedIn, undefinedIn, ← states.heap]
  exact .ok states trivial

theorem registered?_renamed (name : String) :
    (registered? name).Renamed r Any (registered? name) := by
  intro s t states
  rw [registered?, registered?, ← states.registry.modules]
  exact .ok states trivial

theorem exported_renamed (ms : List Module) :
    (exported ms).Renamed r (Bindings.All (Value.AsksFor r.files)) (exported ms) := by
  intro s t states
  rw [exported, exported, ← states.heap]
  cases found : Module.exportedByAll ms s.heap with
  | ok bs => exact .ok states (Module.exportedByAll_all states.code found)
  | error f => exact .error states (.refl _)

theorem bindIn_renamed (scope : FrameId) (name : String) {v : Value} (value : v.AsksFor r.files) :
    (bindIn scope name v).Renamed r Any (bindIn scope name v) := by
  intro s t states
  have heaps : s.heap.bind scope name v = t.heap.bind scope name v := by rw [states.heap]
  exact .ok (states.withHeap heaps (states.code.bind scope name value)) trivial

theorem define_renamed (scope : FrameId) (label : Label) {v : Value} (value : v.AsksFor r.files) :
    (define scope label v).Renamed r Any (define scope label v) := by
  rw [define]
  cases label.name? with
  | some name => exact bindIn_renamed scope name value
  | none => exact renamed_throw (.refl _)

theorem set_renamed (scope : FrameId) (name : String) {v : Value} (value : v.AsksFor r.files) :
    (set scope name v).Renamed r Any (set scope name v) := by
  intro s t states
  rw [set, set, ← states.heap]
  cases s.heap.find? scope name with
  | some i => exact bindIn_renamed i name value s t states
  | none => exact .error states (.refl _)

theorem defineAll_renamed (scope : FrameId) {entries : List (String × Value)}
    (values : ∀ entry ∈ entries, entry.2.AsksFor r.files) :
    (defineAll scope entries).Renamed r Any (defineAll scope entries) := by
  induction entries with
  | nil => exact renamed_pure trivial
  | cons entry rest ih =>
    obtain ⟨first, later⟩ := List.forall_mem_cons.mp values
    exact (define_renamed scope _ first).bind fun _ _ => ih later

theorem allocate_renamed (states : s.Renamed r t) {f : Frame}
    (bindings : f.bindings.All (Value.AsksFor r.files)) :
    (allocate f s).Renamed r Any (allocate f t) := by
  have heaps : s.heap.push f = t.heap.push f := by rw [states.heap]
  rw [allocate, allocate, ← states.heap]
  refine .ok (states.withHeap ?_ (states.code.push bindings)) trivial
  rfl

theorem openScope_renamed (scope : FrameId) :
    (openScope scope).Renamed r Any (openScope scope) := by
  intro s t states
  rw [openScope, openScope, ← states.heap]
  exact allocate_renamed states Bindings.all_empty

theorem enter_renamed (c : Closure) {args : List Value}
    (values : ∀ v ∈ args, v.AsksFor r.files) :
    (enter c args).Renamed r Any (enter c args) := by
  intro s t states
  rw [enter, enter, ← states.heap]
  cases entered : s.heap.bodyFrame c args with
  | ok f => exact allocate_renamed states (Heap.bodyFrame_all values entered)
  | error e => exact .error states (.refl _)

theorem stamp_renamed : stamp.Renamed r Any stamp := by
  intro s t states
  rw [stamp, stamp, ← states.fresh]
  exact .ok { states with fresh := rfl } trivial

theorem declare_renamed (m : Module) : (declare m).Renamed r Any (declare m) :=
  fun _ _ states => .ok { states with
    registry := states.registry.register m
    progress := states.progress.collect m } trivial

theorem cacheFile_renamed (key : String) (ms : List Module) :
    (cacheFile key ms).Renamed r Any (cacheFile (r.key key) ms) :=
  fun _ _ states => .ok { states with registry := states.registry.cacheFile key ms } trivial

variable {i j : FrameId} {key : String}

theorem whileRequiring_renamed (key : String) (inside : x.Renamed r good y) (within : x.Within i)
    (within' : y.Within j) :
    (whileRequiring key x).Renamed r (fun a => good a.1) (whileRequiring (r.key key) y) := by
  intro s t states
  -- Either both runs close a circle, and only the files that they name differ, or neither does.
  by_cases opened : key ∈ s.progress.requiring
  · have circular : s.progress.beginRequire key = .error _ := if_pos opened
    have circular' : t.progress.beginRequire (r.key key) = .error _ :=
      if_pos ((states.progress.requiring_iff key).mpr opened)
    rw [whileRequiring_circle circular, whileRequiring_circle circular']
    exact .error states (.naming rfl (Or.inr (Or.inl rfl)))
  · have begun : s.progress.beginRequire key = .ok (s.insideRequire key).progress := if_neg opened
    have begun' : t.progress.beginRequire (r.key key) =
        .ok (t.insideRequire (r.key key)).progress :=
      if_neg (mt (states.progress.requiring_iff key).mp opened)
    have started : (s.insideRequire key).Renamed r (t.insideRequire (r.key key)) :=
      { states with
        progress := ⟨congrArg (r.key key :: ·) states.progress.requiring, states.progress.loading,
          congrArg ([] :: ·) states.progress.collectors⟩ }
    have came := inside _ _ started
    generalize hx : x _ = rx at came
    generalize hy : y _ = ry at came
    cases came with
    | ok ended fine =>
      obtain ⟨declared, closed, result⟩ := whileRequiring_ok begun (within _ _ (ends_of_ok hx)) hx
      obtain ⟨declared', closed', result'⟩ :=
        whileRequiring_ok begun' (within' _ _ (ends_of_ok hy)) hy
      -- What was collected is the same because modules do not mention files.
      have collected := ended.progress.collectors
      rw [Progress.endRequire_ok closed, Progress.endRequire_ok closed'] at collected
      obtain ⟨rfl, -⟩ := List.cons.inj collected
      rw [result, result']
      exact .ok { ended with progress := states.progress } fine
    | error ended errors =>
      rw [whileRequiring_error begun (within _ _ (ends_of_error hx)) hx,
        whileRequiring_error begun' (within' _ _ (ends_of_error hy)) hy]
      exact .error { ended with progress := states.progress } errors
    | outOfFuel =>
      rw [whileRequiring_outOfFuel begun hx, whileRequiring_outOfFuel begun' hy]
      exact .outOfFuel

theorem whileLoading_renamed (key : String) (inside : x.Renamed r good y) (within : x.Within i)
    (within' : y.Within j) :
    (whileLoading key x).Renamed r good (whileLoading (r.key key) y) := by
  intro s t states
  by_cases opened : key ∈ s.progress.loading
  · have opened' : r.key key ∈ t.progress.loading := (states.progress.loading_iff key).mpr opened
    rw [whileLoading_circle opened, whileLoading_circle opened']
    exact .error states (.naming rfl (Or.inr (Or.inr rfl)))
  · have opened' : r.key key ∉ t.progress.loading := mt (states.progress.loading_iff key).mp opened
    have started : (s.insideLoad key).Renamed r (t.insideLoad (r.key key)) :=
      { states with
        progress := ⟨states.progress.requiring,
          congrArg (r.key key :: ·) states.progress.loading, states.progress.collectors⟩ }
    have left : ∀ {s' t' : State}, s'.Renamed r t' → (s'.afterLoad s).Renamed r (t'.afterLoad t) :=
      fun ended => { ended with
        progress := ⟨ended.progress.requiring, states.progress.loading, ended.progress.collectors⟩ }
    have came := inside _ _ started
    generalize hx : x _ = rx at came
    generalize hy : y _ = ry at came
    cases came with
    | ok ended fine =>
      rw [whileLoading_ok opened within hx, whileLoading_ok opened' within' hy]
      exact .ok (left ended) fine
    | error ended errors =>
      rw [whileLoading_error opened within hx, whileLoading_error opened' within' hy]
      exact .error (left ended) errors
    | outOfFuel =>
      rw [whileLoading_outOfFuel opened hx, whileLoading_outOfFuel opened' hy]
      exact .outOfFuel

end Action

end ModularLisp
