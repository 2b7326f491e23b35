import ModularLisp.Proofs.Fuel
import ModularLisp.Proofs.Imports
import ModularLisp.Proofs.Nesting
import ModularLisp.Proofs.Visibility

/-!
# The cache of required files

A file's entry is written by the require that has evaluated all of its forms and found modules
declared, and by nothing else; what lies between that require's look into the cache and its entry
cannot write the same key, because the file is in progress. So entries are written once and stay,
and a require that fails before its entry leaves none. The choice of names comes after the entry: a
require that fails there leaves its file cached.
-/

namespace ModularLisp

/-- The file `key` is cached with the modules `ms`. -/
def State.Caches (s : State) (key : String) (ms : List Module) : Prop :=
  s.registry.files.find? key = some ms

/-- Every entry of the cache is still there, with the same modules. -/
def State.CacheKept (s t : State) : Prop := ∀ key ms, s.Caches key ms → t.Caches key ms

namespace State.CacheKept

variable {s t u : State}

theorem refl (s : State) : s.CacheKept s := fun _ _ cached => cached

theorem of_registry (same : t.registry = s.registry) : s.CacheKept t := by
  intro key ms cached
  rwa [Caches, same]

theorem trans (st : s.CacheKept t) (tu : t.CacheKept u) : s.CacheKept u :=
  fun key ms cached => tu key ms (st key ms cached)

/-- A new entry replaces none when its file is not cached. -/
theorem of_mayCache {key : String} {declared : List Module} {q : Progress} {r : Registry}
    (uncached : s.registry.files.find? key = none) (mayCache : s.registry.MayCache key declared r) :
    s.CacheKept { s with progress := q, registry := r } := by
  intro other ms cached
  have apart : key ≠ other := by
    intro same
    rw [same] at uncached
    cases cached.symm.trans uncached
  exact (mayCache.find?_of_ne apart).trans cached

end State.CacheKept

namespace Evolves

variable {scope : FrameId} {s t : State}

/-- When a require ends its file is still uncached: it has been in progress all the time. -/
theorem uncached_of_begun {key : String} {p : Progress}
    (h : Evolves scope { s with progress := p } t)
    (uncached : ∀ key ∈ s.progress.requiring, s.registry.files.find? key = none)
    (fresh : s.registry.files.find? key = none) (begun : s.progress.beginRequire key = .ok p) :
    t.registry.files.find? key = none := by
  obtain ⟨-, rfl⟩ := Progress.beginRequire_ok begun
  exact h.uncached (List.forall_mem_cons.mpr ⟨fresh, uncached⟩) key List.mem_cons_self

theorem cache_kept (h : Evolves scope s t)
    (uncached : ∀ key ∈ s.progress.requiring, s.registry.files.find? key = none) :
    s.CacheKept t := by
  induction h with
  | refl | define | set | stamp | declare => exact .refl _
  | trans first _ ih₁ ih₂ =>
    have between := first.uncached uncached
    rw [← first.progress_kept.requiring] at between
    exact (ih₁ uncached).trans (ih₂ between)
  | inside _ _ _ _ ih => exact ih uncached
  | require fresh begun inner _ mayCache ih =>
    have still := inner.uncached_of_begun uncached fresh begun
    obtain ⟨-, rfl⟩ := Progress.beginRequire_ok begun
    refine (ih (List.forall_mem_cons.mpr ⟨fresh, uncached⟩)).trans ?_
    exact .of_mayCache still mayCache
  | load begun _ _ ih =>
    obtain ⟨-, rfl⟩ := Progress.beginLoad_ok begun
    exact ih uncached

end Evolves

/-! ## Along a course -/

/-- From `s` over the states `us` to `r`, if it is reached, every entry stays. -/
def Lasting (s : State) (us : List State) (r : Option State) : Prop :=
  ((s :: us) ++ r.toList).Pairwise State.CacheKept

namespace Lasting

variable {s t u : State} {us vs : List State} {r : Option State}

theorem stay (kept : s.CacheKept t) : Lasting s [] (some t) := List.pairwise_pair.mpr kept

theorem stall (s : State) : Lasting s [] none := List.pairwise_singleton _ s

theorem uncons (h : Lasting s us r) : (∀ u ∈ us ++ r.toList, s.CacheKept u) ∧
    (us ++ r.toList).Pairwise State.CacheKept := by
  rwa [Lasting, List.cons_append, List.pairwise_cons] at h

theorem before (h : Lasting s us (some t)) : ∀ u ∈ s :: us, u.CacheKept t :=
  fun u member => (List.pairwise_append.mp h).2.2 u member t List.mem_cons_self

theorem append (first : Lasting s us (some t)) (later : Lasting t vs r) :
    Lasting s (us ++ vs) r := by
  rw [Lasting, ← List.cons_append, List.append_assoc]
  refine List.pairwise_append.mpr ⟨(List.pairwise_append.mp first).1, later.uncons.2, ?_⟩
  exact fun a old b new => (first.before a old).trans (later.uncons.1 b new)

theorem of_kept (h : Lasting t us r) (kept : s.CacheKept t) : Lasting s us r := by
  have whole : Lasting s ([] ++ us) r := (stay kept).append h
  exact whole

theorem ends (h : Lasting s us (some t)) (kept : t.CacheKept u) : Lasting s us (some u) := by
  have whole : Lasting s (us ++ []) (some u) := h.append (stay kept)
  rwa [List.append_nil] at whole

/-- The first and the last state may be listed among the others. -/
theorem closed (h : Lasting s us r) : Lasting s (s :: (us ++ r.toList)) r := by
  have first : Lasting s ([s] ++ us) r := by
    refine List.pairwise_cons.mpr ⟨?_, h⟩
    exact List.forall_mem_cons.mpr ⟨.refl s, h.uncons.1⟩
  cases r with
  | none => simpa using first
  | some t => exact first.append (List.pairwise_cons.mpr
    ⟨List.forall_mem_cons.mpr ⟨.refl t, List.forall_mem_cons.mpr ⟨.refl t, nofun⟩⟩, stay (.refl t)⟩)

end Lasting

section Courses

variable {loader : Option Loader} {ev : Evaluator} {deeds : Deeds}
  {scope : FrameId} {s t : State} {cs : List Call} {r : Option State}

/-- What each call lists between its beginning and its end may be put together. -/
theorem Course.lasting (h : Course loader ev deeds scope s cs r)
    (parts : ∀ e scope, (ev e scope).Within scope) {listed : Call → List State}
    (inner : ∀ c, c.state.Orderly loader → Lasting c.state (listed c) (c.answer ev).state?)
    (orderly : s.Orderly loader) : Lasting s (cs.flatMap listed) r := by
  induction h with
  | stay scope s => exact .stay (.refl s)
  | stall scope s => exact .stall s
  | andThen first _ ih₁ ih₂ =>
    rw [List.flatMap_append]
    exact (ih₁ orderly).append (ih₂ (orderly.evolves (first.evolves parts rfl)))
  | call e scope s =>
    rw [List.flatMap_singleton]
    exact inner ⟨e, scope, s⟩ orderly
  | define | set | stamp | declare => exact .stay fun _ _ cached => cached
  | inside scope f named _ ih =>
    exact (ih ((State.Orderly.invariant loader).inside named orderly)).of_kept (.of_registry rfl)
  | require canonical fresh begun inner _ mayCache _ ih =>
    have uncached := (inner.evolves parts rfl).uncached_of_begun orderly.uncached fresh begun
    refine Lasting.ends (Lasting.of_kept (ih (orderly.beginRequire canonical fresh begun)) ?_) ?_
    · exact .of_registry rfl
    · exact .of_mayCache uncached mayCache
  | stallInRequire canonical fresh begun _ ih =>
    exact (ih (orderly.beginRequire canonical fresh begun)).of_kept (.of_registry rfl)
  | load canonical begun _ _ ih =>
    refine Lasting.ends (Lasting.of_kept (ih (orderly.beginLoad canonical begun)) ?_) ?_
    · exact .of_registry rfl
    · exact .of_registry rfl
  | stallInLoad canonical begun _ ih =>
    exact (ih (orderly.beginLoad canonical begun)).of_kept (.of_registry rfl)

/-- What is cached when a course ends was cached before, or a call has cached it, or the course has
cached it itself. -/
theorem Course.caches_cases (h : Course loader ev deeds scope s cs r) {key : String}
    {ms : List Module} {new : Call → Prop}
    (inner : ∀ c u, (ev c.expr c.scope).Ends c.state u → u.Caches key ms →
      c.state.Caches key ms ∨ new c) (ended : r = some t) (cached : t.Caches key ms) :
    s.Caches key ms ∨ (∃ c ∈ cs, new c) ∨ deeds.fills key ms := by
  induction h generalizing t with
  | stay | define | set | stamp | declare =>
    cases ended
    exact Or.inl cached
  | stall | stallInRequire | stallInLoad => cases ended
  | andThen _ _ ih₁ ih₂ =>
    rcases ih₂ ended cached with between | ⟨c, call, by_call⟩ | own
    · rcases ih₁ rfl between with before | ⟨c, call, by_call⟩ | own
      · exact Or.inl before
      · exact Or.inr (Or.inl ⟨c, List.mem_append_left _ call, by_call⟩)
      · exact Or.inr (Or.inr own)
    · exact Or.inr (Or.inl ⟨c, List.mem_append_right _ call, by_call⟩)
    · exact Or.inr (Or.inr own)
  | call e scope s =>
    rcases inner ⟨e, scope, s⟩ t ended cached with before | by_call
    · exact Or.inl before
    · exact Or.inr (Or.inl ⟨_, List.mem_cons_self, by_call⟩)
  | inside _ _ _ _ ih => exact ih ended cached
  | @require scope s t cs key' p q r declared canonical fresh begun _ _ mayCache own ih =>
    cases ended
    by_cases same : r = t.registry
    · exact ih rfl (by rwa [State.Caches, ← same])
    · have filled := own same
      cases mayCache with
      | dropped => exact absurd rfl same
      | cached =>
        rw [State.Caches, Registry.cacheFile, Bindings.find?_insert] at cached
        split at cached
        · rename_i here
          cases here
          cases cached
          exact Or.inr (Or.inr filled)
        · exact ih rfl cached
  | load _ _ _ _ ih =>
    cases ended
    exact ih rfl cached

end Courses

/-! ## Runs -/

namespace Evaluation

open ModularLisp.Action

variable {loader : Option Loader} {fuel n : Nat} {c d : Call} {s t : State} {key : String}
  {ms : List Module}

/-- Every evaluation of the trace begins in a state of the history. -/
theorem state_mem_history (inside : d ∈ trace loader fuel c) : d.state ∈ history loader fuel c := by
  induction fuel generalizing c with
  | zero =>
    rw [List.mem_singleton.mp inside]
    exact List.mem_cons_self
  | succ fuel ih =>
    rcases List.mem_cons.mp inside with rfl | later
    · exact List.mem_cons_self
    · obtain ⟨b, call, member⟩ := List.mem_flatMap.mp later
      refine List.mem_cons_of_mem _ (List.mem_append_left _ ?_)
      exact List.mem_flatMap.mpr ⟨b, call, ih member⟩

theorem end_mem_history (ended : (eval loader fuel c.expr c.scope).Ends c.state t) :
    t ∈ history loader fuel c := by
  cases fuel with
  | zero => cases ended
  | succ fuel =>
    refine List.mem_cons_of_mem _ (List.mem_append_right _ ?_)
    exact Option.mem_toList.mpr ended

/-- From each state of a history to all later ones every entry stays. -/
theorem history_lasting (loader : Option Loader) (fuel : Nat) (c : Call)
    (orderly : c.state.Orderly loader) :
    Lasting c.state (history loader fuel c) (c.answer (eval loader fuel)).state? := by
  induction fuel generalizing c with
  | zero => exact (Lasting.stall c.state).closed
  | succ fuel ih =>
    have within := eval_within loader fuel
    exact ((step_follows within loader c.expr c.scope c.state).lasting within ih orderly).closed

/-- What is cached at the end of a call is cached at the end of its course. -/
theorem caches_of_call {deeds : Deeds}
    {scope : FrameId} {cs : List Call} {r : Option State} {u : State}
    (h : Course loader (eval loader fuel) deeds scope s cs r) (orderly : s.Orderly loader)
    (last : r = some t) (call : c ∈ cs) (ended : (eval loader fuel c.expr c.scope).Ends c.state u)
    (cached : u.Caches key ms) : t.Caches key ms := by
  subst last
  have lasting := h.lasting (eval_within loader fuel) (history_lasting loader fuel) orderly
  refine lasting.before u (List.mem_cons_of_mem _ ?_) key ms cached
  exact List.mem_flatMap.mpr ⟨c, call, end_mem_history ended⟩

theorem caches_cases (ended : (eval loader fuel c.expr c.scope).Ends c.state t)
    (cached : t.Caches key ms) : c.state.Caches key ms ∨
      ∃ d ∈ trace loader fuel c, ∃ n, Completes loader (eval loader n) d key ms := by
  induction fuel generalizing c t with
  | zero => cases ended
  | succ fuel ih =>
    have course := step_follows (eval_within loader fuel) loader c.expr c.scope c.state
    rcases course.caches_cases (fun c u => ih) ended cached with
      before | ⟨b, call, d, inside, completes⟩ | own
    · exact Or.inl before
    · exact Or.inr ⟨d, List.mem_cons_of_mem c (List.mem_flatMap.mpr ⟨b, call, inside⟩), completes⟩
    · exact Or.inr ⟨c, List.mem_cons_self, fuel, own⟩

/-- Whatever becomes of the exports, the registry is left alone. -/
theorem shareExports_registry {filename : String} {visibility : Visibility} {scope : FrameId}
    (ended : (shareExports filename visibility ms scope).Ends s t) : t.registry = s.registry := by
  have follows : (shareExports filename visibility ms scope).Follows none (eval none 0) .none scope
      .none := shareExports_follows filename visibility ms scope
  exact (follows s).registry_of_quiet rfl ended

/-- A require that has evaluated all forms of its file, with modules declared, leaves it cached. -/
theorem Completes.caches (completes : Completes loader (eval loader n) c key ms)
    (ended : (eval loader fuel c.expr c.scope).Ends c.state t) : t.Caches key ms := by
  -- An amount of fuel that is enough for both evaluations gives what either of them gives.
  have within := eval_within loader (max fuel n)
  have whole : (eval loader (max fuel n + 1) c.expr c.scope).Ends c.state t := by
    rw [Ends, eval_mono (by omega) _ _ _ (ended.ne_outOfFuel)]
    exact ended
  obtain @⟨l, filename, key, visibility, scope, s, u, forms, v, declared, rfl, canonical, uncached,
    unopened, served, evaluated, collected, some_declared⟩ := completes
  have again : evalBody (eval (some l) (max fuel n)) s.heap.next .nil forms
      (s.openFile key scope) = .ok v u := by
    rw [← evaluated]
    refine (evalBody_makes _ _ _).same (eval_mono (Nat.le_max_right fuel n)) ?_
    rw [evaluated]
    intro lacking
    cases lacking
  have required := requiredModules_ok within canonical uncached unopened served again collected
    some_declared
  have shared := (ends_bind_of_ok required).mp whole
  refine State.CacheKept.of_registry (shareExports_registry shared) key ms ?_
  exact (Bindings.find?_insert _ _ _ _).trans (if_pos rfl)

/-- What a call inside an evaluation has cached is cached when the evaluation ends. -/
theorem caches_of_completes (orderly : c.state.Orderly loader)
    (ended : (eval loader fuel c.expr c.scope).Ends c.state t) (inside : d ∈ trace loader fuel c)
    (completes : Completes loader (eval loader n) d key ms) : t.Caches key ms := by
  induction fuel generalizing c t with
  | zero => cases ended
  | succ fuel ih =>
    rcases List.mem_cons.mp inside with rfl | later
    · exact completes.caches ended
    · obtain ⟨b, call, member⟩ := List.mem_flatMap.mp later
      have within := eval_within loader fuel
      have course := step_follows within loader c.expr c.scope c.state
      obtain ⟨u, reached⟩ := call_ends ended call
      have begun := (State.Orderly.invariant loader).calls_keep within course orderly b call
      exact caches_of_call course orderly ended call reached (ih begun reached member)

/-- A file is cached when an evaluation ends if and only if it was before or a require inside has
evaluated all of its forms and found modules declared. -/
theorem caches_iff (orderly : c.state.Orderly loader)
    (ended : (eval loader fuel c.expr c.scope).Ends c.state t) : t.Caches key ms ↔
      c.state.Caches key ms ∨
        ∃ d ∈ trace loader fuel c, ∃ n, Completes loader (eval loader n) d key ms := by
  constructor
  · exact caches_cases ended
  · rintro (before | ⟨d, inside, n, completes⟩)
    · exact (eval_within loader fuel _ _ _ t ended).cache_kept orderly.uncached key ms before
    · exact caches_of_completes orderly ended inside completes

/-- The same for forms one after the other. -/
theorem forms_caches_iff {scope : FrameId} {forms : List Expr} (orderly : s.Orderly loader)
    (ended : (evalForms loader fuel scope forms).Ends s t) : t.Caches key ms ↔ s.Caches key ms ∨
      ∃ d ∈ traceForms loader fuel scope forms s, ∃ n,
        Completes loader (eval loader n) d key ms := by
  have within := eval_within loader fuel
  have course := evalForms_follows loader fuel scope forms s
  constructor
  · intro cached
    rcases course.caches_cases (fun c u => caches_cases) ended cached with
      before | ⟨b, call, d, inside, completes⟩ | own
    · exact Or.inl before
    · exact Or.inr ⟨d, List.mem_flatMap.mpr ⟨b, call, inside⟩, completes⟩
    · exact own.elim
  · rintro (before | ⟨d, inside, n, completes⟩)
    · exact (course.evolves within ended).cache_kept orderly.uncached key ms before
    · obtain ⟨b, call, member⟩ := List.mem_flatMap.mp inside
      obtain ⟨u, reached⟩ := exists_ends fun lacking =>
        ended.ne_outOfFuel ((evalBody_makes scope .nil forms).lacks _ s b call lacking)
      have begun := (State.Orderly.invariant loader).calls_keep within course orderly b call
      have cached := caches_of_completes begun reached member completes
      exact caches_of_call course orderly ended call reached cached

/-! ## Requires that fail -/

section Requires

variable {ev : Evaluator} (parts : ∀ e scope, (ev e scope).Within scope) {l : Loader}
  {filename : String} {scope : FrameId}

include parts

/-- The modules of a file are found in the cache or put there. -/
theorem caches_of_ok (canonical : l.canonicalName filename = .ok key)
    (done : requiredModules (some l) ev filename scope s = .ok ms t) : t.Caches key ms := by
  have case := requiredModules_cases parts canonical scope s
  rw [done] at case
  cases case with
  | cached found => exact found
  | declared => exact (Bindings.find?_insert _ _ _ _).trans (if_pos rfl)

/-- A file whose modules are not found is not cached. -/
theorem uncached_of_error (canonical : l.canonicalName filename = .ok key)
    (orderly : s.Orderly loader) {e : Error}
    (failed : requiredModules (some l) ev filename scope s = .error e t) :
    t.registry.files.find? key = none := by
  have case := requiredModules_cases parts canonical scope s
  have still : ∀ {p u}, s.registry.files.find? key = none →
      s.progress.beginRequire key = .ok p →
      (evalRequired ev l filename scope).Ends { s with progress := p } u →
      u.registry.files.find? key = none := by
    intro p u uncached begun ended
    have evolves := evalRequired_within parts l filename scope scope _ u ended
    exact evolves.uncached_of_begun orderly.uncached uncached begun
  rw [failed] at case
  cases case with
  | circle uncached => exact uncached
  | failed uncached begun ended =>
    have kept := still uncached begun (ends_of_error ended)
    exact kept
  | undeclared uncached begun ended =>
    have kept := still uncached begun (ends_of_ok ended)
    exact kept

end Requires

/-- A require that fails and leaves its file cached has failed in the choice of names only. -/
theorem refused_of_caches {l : Loader} {filename : String} {visibility : Visibility}
    {scope : FrameId} {e : Error} (canonical : l.canonicalName filename = .ok key)
    (orderly : s.Orderly (some l)) (sound : s.Sound)
    (failed : eval (some l) fuel (.requireDecl filename visibility) scope s = .error e t)
    (cached : t.Caches key ms) : visibility.Refused filename ms e := by
  cases fuel with
  | zero => cases failed
  | succ fuel =>
    have within := eval_within (some l) fuel
    rw [eval, step, evalRequire_eq] at failed
    cases required : requiredModules (some l) (eval (some l) fuel) filename scope s with
    | outOfFuel => rw [bind_outOfFuel required] at failed; cases failed
    | error e' u =>
      rw [bind_error required] at failed
      cases failed
      cases (uncached_of_error within canonical orderly required).symm.trans cached
    | ok declared u =>
      have found := caches_of_ok within canonical required
      rw [bind_ok required] at failed
      have evolves := requiredModules_within within _ _ scope s u (ends_of_ok required)
      have bound : ∀ m ∈ declared, m.Bound u.heap := fun m member =>
        (evolves.sound sound).registry m (.declared found member)
      have kept := State.CacheKept.of_registry (shareExports_registry (ends_of_error failed))
      obtain rfl : declared = ms := Option.some.inj ((kept key declared found).symm.trans cached)
      rcases shareExports_cases bound filename visibility scope with
        ⟨v, done⟩ | ⟨reason, v, stopped, refused⟩
      · cases done.symm.trans failed
      · cases stopped.symm.trans failed
        exact refused

end Evaluation

/-! ## Reachable sessions -/

theorem State.Sound.invariant (loader : Option Loader) : Invariant loader State.Sound where
  evolves := fun h sound => h.sound sound
  inside := fun named sound => sound.push named
  require := fun _ _ begun sound => sound.beginRequire begun
  load := by
    intro s key p _ begun sound
    obtain ⟨-, rfl⟩ := Progress.beginLoad_ok begun
    exact ⟨sound.named, sound.registry, sound.collected⟩

namespace Session

open Evaluation

/-- Registry `k` has the file `key` cached with the modules `ms`. -/
def Caches (s : Session) (k : Nat) (key : String) (ms : List Module) : Prop :=
  ∃ r, s.registries[k]? = some r ∧ r.files.find? key = some ms

variable {s t : Session} {loader : Option Loader} {fuel index : Nat} {source : String}

theorem Leads.keeps_cached (leads : s.Leads t) (reachable : s.Reachable) {k : Nat} {key : String}
    {ms : List Module} (cached : s.Caches k key ms) : t.Caches k key ms := by
  induction leads with
  | refl => exact cached
  | @tail b c before step ih =>
    obtain ⟨r, found, entry⟩ := ih
    rcases step.registry_cases found with same | ⟨i, member, u, evolves, rfl, changed⟩
    · exact ⟨r, same, entry⟩
    · have orderly := Reachable.orderly (reachable.trans before) none i member
      exact ⟨u.registry, changed, evolves.cache_kept orderly.uncached key ms entry⟩

theorem mem_trace {c : Call} (inside : c ∈ s.trace loader fuel index source) :
    ∃ i ∈ s.interpreters, ∃ forms, Expr.readAll source = .ok forms ∧
      s.history loader fuel index source = historyOfForms loader fuel i.root forms (s.stateOf i) ∧
      ∃ b ∈ sequenceCalls (Evaluation.eval loader fuel) i.root forms (s.stateOf i),
        c ∈ Evaluation.trace loader fuel b := by
  simp only [trace] at inside
  split at inside
  · rename_i i forms found read
    obtain ⟨b, call, member⟩ := List.mem_flatMap.mp inside
    refine ⟨i, Array.mem_of_getElem? found, forms, read, ?_, b, call, member⟩
    simp only [history, found, read]
  · cases inside

theorem state_mem_history {c : Call} (inside : c ∈ s.trace loader fuel index source) :
    c.state ∈ s.history loader fuel index source := by
  obtain ⟨i, -, forms, -, same, b, call, member⟩ := mem_trace inside
  rw [same]
  exact List.mem_flatMap.mpr ⟨b, call, Evaluation.state_mem_history member⟩

theorem history_lasting (reachable : s.Reachable) (loader : Option Loader) (fuel index : Nat)
    (source : String) : (s.history loader fuel index source).Pairwise State.CacheKept := by
  simp only [history]
  split
  · rename_i i forms found read
    have orderly := reachable.orderly loader i (Array.mem_of_getElem? found)
    have course := evalForms_follows loader fuel i.root forms (s.stateOf i)
    have lasting := course.lasting (eval_within loader fuel)
      (Evaluation.history_lasting loader fuel) orderly
    exact (List.pairwise_append.mp lasting.uncons.2).1
  · exact List.Pairwise.nil

/-- The files that the evaluation of a text leaves cached. -/
theorem evalSource_caches_iff (reachable : s.Reachable) {i : Interpreter}
    (found : s.interpreters[index]? = some i) {u : State}
    (ended : (evalSource loader fuel source i).Ends (s.stateOf i) u) (key : String)
    (ms : List Module) : u.Caches key ms ↔ (s.stateOf i).Caches key ms ∨
      ∃ d ∈ s.trace loader fuel index source, ∃ n,
        Completes loader (Evaluation.eval loader n) d key ms := by
  cases read : Expr.readAll source with
  | error e =>
    simp only [evalSource, read] at ended
    rw [Action.reads_throw _ _ _ ended]
    simp [trace, found, read]
  | ok forms =>
    simp only [evalSource, read] at ended
    rw [trace_eq found read]
    exact forms_caches_iff (reachable.orderly loader i (Array.mem_of_getElem? found)) ended

/-- The cache of required files is written once, in all runs of any number of interpreters. An entry
stays through every later step of the session and from each moment of an evaluation to all later
ones. A file is cached at the end of a text, and of every evaluation inside it, if and only if it
was before or a require inside has evaluated all of the file's forms and found modules declared. A
require that fails in any other way than in the choice of names leaves its file uncached. And in
every state that has the file cached, a require of whatever name with the same canonical name gives
the same modules, without a call and whatever the file would read as. -/
theorem cache_write_once (s : Session) (reachable : s.Reachable) :
    (∀ t, s.Leads t → ∀ k key ms, s.Caches k key ms → t.Caches k key ms) ∧
    (∀ loader fuel index source,
      (s.history loader fuel index source).Pairwise State.CacheKept ∧
      (∀ i u, s.interpreters[index]? = some i →
        (evalSource loader fuel source i).Ends (s.stateOf i) u →
        ∀ key ms, u.Caches key ms ↔ (s.stateOf i).Caches key ms ∨
          ∃ d ∈ s.trace loader fuel index source, ∃ n,
            Completes loader (Evaluation.eval loader n) d key ms) ∧
      ∀ c ∈ s.trace loader fuel index source, ∀ m u,
        (Evaluation.eval loader m c.expr c.scope).Ends c.state u →
        (∀ key ms, u.Caches key ms ↔ c.state.Caches key ms ∨
          ∃ d ∈ Evaluation.trace loader m c, ∃ n,
            Completes loader (Evaluation.eval loader n) d key ms) ∧
        ∀ l filename visibility key ms e, loader = some l →
          c.expr = .requireDecl filename visibility → l.canonicalName filename = .ok key →
          c.answer (Evaluation.eval loader m) = .error e u → u.Caches key ms →
            visibility.Refused filename ms e) ∧
    ∀ (u : State) key ms, u.Caches key ms → ∀ (l : Loader) filename,
      l.canonicalName filename = .ok key → ∀ ev scope,
        requiredModules (some l) ev filename scope u = .ok ms u ∧
          requireCalls (some l) ev filename scope u = [] := by
  refine ⟨fun t leads k key ms => leads.keeps_cached reachable, ?_, ?_⟩
  · intro loader fuel index source
    refine ⟨history_lasting reachable loader fuel index source,
      fun i u found ended => evalSource_caches_iff reachable found ended, ?_⟩
    intro c inside m u ended
    have orderly := (State.Orderly.invariant loader).session_keeps (reachable.orderly loader) fuel
      index source c.state (state_mem_history inside)
    have sound := (State.Sound.invariant loader).session_keeps
      (fun i member => reachable.sound.stateOf (reachable.idle i member)) fuel index source c.state
      (state_mem_history inside)
    refine ⟨fun key ms => caches_iff orderly ended, ?_⟩
    rintro l filename visibility key ms e rfl required canonical failed cached
    rw [Call.answer, required] at failed
    exact refused_of_caches canonical orderly sound failed cached
  · intro u key ms cached l filename canonical ev scope
    exact ⟨requiredModules_cached canonical cached, requireCalls_cached canonical cached⟩

/-- Two interpreters over one registry: what one has required stays cached when a require of the
other one is refused. -/
theorem cache_write_once_over_shared_registry :
    let l : Loader := .ofTable (.ofList [("f", "(module m (export a) (define a true))")])
    let s : Session := ((start true 2).eval (some l) 4 0 "(require \"f\")").2
    let t : Session := (s.eval (some l) 4 1 "(require \"f\" :only (b))").2
    let ms : List Module := [⟨"m", 3, ["a"]⟩]
    s.Reachable ∧ s.Leads t ∧ s.Caches 0 "f" ms ∧ t.Caches 0 "f" ms ∧
      requiredModules (some l) (Evaluation.eval (some l) 3) "f" 0 (t.stateOf ⟨0, 0, 0, .idle⟩) =
        .ok ms (t.stateOf ⟨0, 0, 0, .idle⟩) := by
  intro l s t ms
  have reachable : s.Reachable :=
    (reachable_start true 2).tail (.eval (some l) 4 0 "(require \"f\")")
  have leads : s.Leads t := .single (.eval (some l) 4 1 "(require \"f\" :only (b))")
  have entry : (s.registries[0]?.map (·.files.find? "f")) = some (some ms) := by decide +kernel
  obtain ⟨r, found, cached⟩ := Option.map_eq_some_iff.mp entry
  have before : s.Caches 0 "f" ms := ⟨r, found, cached⟩
  obtain ⟨persists, -, later⟩ := cache_write_once s reachable
  have after := persists t leads 0 "f" ms before
  refine ⟨reachable, leads, before, after, ?_⟩
  obtain ⟨q, held, still⟩ := after
  have here : (t.stateOf ⟨0, 0, 0, .idle⟩).Caches "f" ms := by
    have own : t.registryOf ⟨0, 0, 0, .idle⟩ = q := by rw [registryOf, held, Option.getD_some]
    exact (congrArg (·.files.find? "f") own).trans still
  have canonical : l.canonicalName "f" = .ok "f" := by rfl
  exact (later _ "f" ms here l "f" canonical _ 0).1

/-- A require that asks for a name which its file does not export fails, and leaves the file cached
that was not cached before. -/
theorem refused_require_leaves_cached :
    let l : Loader := .ofTable (.ofList [("f", "(module m (export a) (define a true))")])
    let after := (start false 1).eval (some l) 4 0 "(require \"f\" :only (b))"
    (start false 1).Reachable ∧ (∀ ms, ¬ (start false 1).Caches 0 "f" ms) ∧
      after.1.errorKind? = some .exportNotFound ∧ after.2.Caches 0 "f" [⟨"m", 2, ["a"]⟩] := by
  intro l after
  refine ⟨reachable_start false 1, ?_, by decide +kernel, ?_⟩
  · rintro ms ⟨r, found, cached⟩
    cases found
    cases cached
  · have entry : (after.2.registries[0]?.map (·.files.find? "f")) =
        some (some [⟨"m", 2, ["a"]⟩]) := by decide +kernel
    obtain ⟨r, found, cached⟩ := Option.map_eq_some_iff.mp entry
    exact ⟨r, found, cached⟩

end Session

end ModularLisp
