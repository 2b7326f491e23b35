import ModularLisp.Proofs.Imports
import ModularLisp.Proofs.Libraries

/-!
# Requires search the graph

One lemma for each way in which the require of one file of a library can go; by induction on the
search, requires in order do what the search does, in success and in failure, and the declarations
that they evaluate are the account of the search.
-/

namespace ModularLisp

open Evaluation SourceFile Search

namespace Library

variable {g : Library} {name : String} {stack done : List String} {s : State} {scope : FrameId}

theorem trace_requireForm (loader : Option Loader) (fuel : Nat) (name : String) (scope : FrameId)
    (s : State) : trace loader (fuel + 1) ⟨requireForm name, scope, s⟩ =
      ⟨requireForm name, scope, s⟩ ::
        (requireCalls loader (eval loader fuel) name scope s).flatMap (trace loader fuel) := rfl

theorem forms_eq_append (g : Library) (name : String) : (g.file name).forms =
    (g.requires name).map requireForm ++ [(g.file name).moduleForm] := rfl

/-- A cached file is made visible, and nothing is declared. -/
theorem require_finished (known : name ∈ g.sources.names) (searching : s.Searching stack done)
    (old : name ∈ done) (fuel : Nat) (scope : FrameId) :
    ∃ t, eval g.loader (fuel + 1) (requireForm name) scope s = .ok .nil t ∧
      t.Searching stack done ∧
      ∀ file, declarationsIn file (trace g.loader (fuel + 1) ⟨requireForm name, scope, s⟩) =
        if file = stack.head? then [requireForm name] else [] := by
  obtain ⟨ms, cached⟩ : ∃ ms, s.registry.files.find? name = some ms := by
    rw [← searching.files, ← Bindings.binds_iff] at old
    exact Option.isSome_iff_exists.mp old
  have canonical := canonicalName_eq known
  have looked : requiredModules g.loader (eval g.loader fuel) name scope s = .ok ms s :=
    requiredModules_cached canonical cached
  obtain ⟨exports, -, required⟩ := evalRequire_all_ok looked fun m member =>
    searching.sound.registry m (.declared cached member)
  refine ⟨_, required, ⟨?_, searching.requiring, searching.files⟩, fun file => ?_⟩
  · exact (eval_within g.loader (fuel + 1) (requireForm name) scope s _
      (Action.ends_of_ok required)).sound searching.sound
  · rw [trace_requireForm, requireCalls_cached canonical cached, declarationsIn_cons rfl,
      Call.file?, searching.requiring]
    exact List.append_nil _

/-- The forms of a file give a value if its requires do, and declare a module. -/
theorem evalBody_forms (known : name ∈ g.sources.names) {fuel : Nat} {t : State}
    (evaluated : evalBody (eval g.loader (fuel + 3)) s.heap.next .nil
      ((g.requires name).map requireForm) (s.openFile name scope) = .ok .nil t) :
    ∃ u declared, evalBody (eval g.loader (fuel + 3)) s.heap.next .nil (g.file name).forms
        (s.openFile name scope) = .ok .nil u ∧
      u.registry.files = t.registry.files ∧
      u.progress.collectors.head? = some declared ∧ declared ≠ [] := by
  obtain ⟨u, done, files, progress⟩ := eval_moduleForm g.loader s.heap.next
    (moduleForm_readable known) fuel t
  have evolves := evalBody_within (eval_within g.loader (fuel + 3)) s.heap.next .nil _ _ t
    (Action.ends_of_ok evaluated)
  obtain ⟨before, collected⟩ := evolves.progress_kept.collectors
  have innermost : t.progress.collectors.head? = some before := by
    rw [collected]
    rfl
  refine ⟨u, before ++ [⟨(g.file name).title, t.heap.next, (g.file name).exports⟩], ?_, files, ?_,
    List.append_ne_nil_of_right_ne_nil _ (List.cons_ne_nil _ _)⟩
  · rw [forms_eq_append, evalBody_append]
    refine (Action.bind_ok evaluated).trans ?_
    exact (Action.bind_ok done).trans rfl
  · rw [progress]
    exact Progress.head?_collect innermost _

/-- A new file has its requires and then its module evaluated, while it is the innermost one. -/
theorem declarationsIn_visited (known : name ∈ g.sources.names)
    (searching : s.Searching stack done) (new : name ∉ done) (unopened : name ∉ stack) {fuel : Nat}
    {t : State} {middle : List String}
    (evaluated : evalBody (eval g.loader fuel) s.heap.next .nil
      ((g.requires name).map requireForm) (s.openFile name scope) = .ok .nil t)
    (inner : t.Searching (name :: stack) middle) (file : Option String) :
    declarationsIn file (trace g.loader (fuel + 1) ⟨requireForm name, scope, s⟩) =
      (if file = stack.head? then [requireForm name] else []) ++
        (declarationsIn file (traceForms g.loader fuel s.heap.next
            ((g.requires name).map requireForm) (s.openFile name scope)) ++
          if file = some name then [(g.file name).moduleForm] else []) := by
  have inside : (requireCalls g.loader (eval g.loader fuel) name scope s).flatMap
      (trace g.loader fuel) = traceForms g.loader fuel s.heap.next (g.file name).forms
        (s.openFile name scope) := by
    rw [requireCalls_uncached (canonicalName_eq known) (find?_eq_none_of_not_mem searching new)
      (not_mem_requiring searching unopened) (forms_eq known)]
    rfl
  rw [trace_requireForm, inside, declarationsIn_cons rfl, Call.file?, searching.requiring,
    forms_eq_append, traceForms_append evaluated, traceForms_singleton, declarationsIn_append,
    declarationsIn_moduleForm, inner.requiring]
  rfl

/-- A new file is cached after its forms have been evaluated, and made visible. -/
theorem require_visited (known : name ∈ g.sources.names) (searching : s.Searching stack done)
    (new : name ∉ done) (unopened : name ∉ stack) {fuel : Nat} {t : State} {middle : List String}
    (evaluated : evalBody (eval g.loader (fuel + 3)) s.heap.next .nil
      ((g.requires name).map requireForm) (s.openFile name scope) = .ok .nil t)
    (inner : t.Searching (name :: stack) middle) (fresh : name ∉ middle) :
    ∃ u, eval g.loader (fuel + 4) (requireForm name) scope s = .ok .nil u ∧
      u.Searching stack (middle ++ [name]) := by
  obtain ⟨u, declared, whole, files, collected, filled⟩ := evalBody_forms known evaluated
  have required := requiredModules_ok (eval_within g.loader (fuel + 3)) (canonicalName_eq known)
    (find?_eq_none_of_not_mem searching new) (not_mem_requiring searching unopened)
    (forms_eq known) whole collected filled
  have evolved := requiredModules_within (eval_within g.loader (fuel + 3)) g.loader name scope s _
    (Action.ends_of_ok required)
  obtain ⟨exports, -, shown⟩ := evalRequire_all_ok required fun m member =>
    (evolved.sound searching.sound).registry m
      (.declared (by rw [Registry.cacheFile, Bindings.find?_insert, if_pos rfl]) member)
  refine ⟨_, shown, ?_, searching.requiring, ?_⟩
  · exact (eval_within g.loader (fuel + 4) (requireForm name) scope s _
      (Action.ends_of_ok shown)).sound searching.sound
  · have unbound : t.registry.files.binds name = false := by
      rw [← Bool.not_eq_true, Bindings.binds_iff, inner.files]
      exact fresh
    change (u.registry.files.insert name _).names = _
    rw [files, Bindings.names_insert, unbound, inner.files]
    rfl

/-- The require of a file that is being required names the circle. -/
theorem require_repeated (known : name ∈ g.sources.names) (searching : s.Searching stack done)
    (new : name ∉ done) (opened : name ∈ stack) (fuel : Nat) (scope : FrameId) :
    eval g.loader (fuel + 1) (requireForm name) scope s =
      .error (.eval (.circularRequire (stack.reverse ++ [name]))) s := by
  have open_before : name ∈ s.progress.requiring := by rwa [searching.requiring]
  have circle : requiredModules g.loader (eval g.loader fuel) name scope s = _ :=
    requiredModules_circle (canonicalName_eq known) (find?_eq_none_of_not_mem searching new)
      open_before
  rw [searching.requiring] at circle
  exact Action.bind_error circle

/-- An error in the requires of a new file is an error of its own require. -/
theorem require_failed (known : name ∈ g.sources.names) (searching : s.Searching stack done)
    (new : name ∉ done) (unopened : name ∉ stack) {fuel : Nat} {e : Error} {t : State}
    (failed : evalBody (eval g.loader fuel) s.heap.next .nil
      ((g.requires name).map requireForm) (s.openFile name scope) = .error e t) :
    eval g.loader (fuel + 1) (requireForm name) scope s =
      .error e { t with progress := s.progress } := by
  have whole : evalBody (eval g.loader fuel) s.heap.next .nil (g.file name).forms
      (s.openFile name scope) = .error e t := by
    rw [forms_eq_append, evalBody_append]
    exact Action.bind_error failed
  exact Action.bind_error (requiredModules_error (eval_within g.loader fuel)
    (canonicalName_eq known) (find?_eq_none_of_not_mem searching new)
    (not_mem_requiring searching unopened) (forms_eq known) whole)

/-- What requires in order give in a state, by the verdict of the search: all that the search
finishes is cached and has been declared by its account, or the error names the path. -/
def Follows (g : Library) (stack done nodes : List String) (fuel : Nat) (scope : FrameId)
    (s : State) : Except (List String) (List String) → Prop
  | .ok done' => ∃ t,
      evalBody (eval g.loader fuel) scope .nil (nodes.map requireForm) s = .ok .nil t ∧
      t.Searching stack done' ∧
      Account g.requires requireForm (fun name => (g.file name).moduleForm) stack done nodes done'
        fun file => declarationsIn file
          (traceForms g.loader fuel scope (nodes.map requireForm) s)
  | .error path => ∃ t, evalBody (eval g.loader fuel) scope .nil (nodes.map requireForm) s =
      .error (.eval (.circularRequire path)) t

/-- With enough fuel requires in order follow the search. The induction is on the search: an inner
search is that of the file which is required next, one level of nesting deeper. -/
theorem requires_follow {nodes : List String} {r : Except (List String) (List String)}
    (search : Visits g.requires stack done nodes r)
    (known : ∀ name ∈ nodes, name ∈ g.sources.names) (unfinished : ∀ name ∈ stack, name ∉ done) :
    ∃ enough, ∀ fuel, enough ≤ fuel → ∀ scope s, s.Searching stack done →
      g.Follows stack done nodes fuel scope s r := by
  induction search with
  | none stack done =>
    exact ⟨0, fun fuel _ scope s searching => ⟨s, rfl, searching, account_none stack done⟩⟩
  | @finished stack done rest a r old search ih =>
    obtain ⟨first, later⟩ := List.forall_mem_cons.mp known
    obtain ⟨enough, runs⟩ := ih later unfinished
    refine ⟨enough + 1, fun fuel much scope s searching => ?_⟩
    obtain ⟨fuel, rfl⟩ : ∃ n, fuel = n + 1 := ⟨fuel - 1, by omega⟩
    obtain ⟨t, required, between, did⟩ := require_finished first searching old fuel scope
    have follows := runs (fuel + 1) (by omega) scope t between
    cases r with
    | error path =>
      obtain ⟨u, failed⟩ := follows
      exact ⟨u, (Action.bind_ok required).trans failed⟩
    | ok done' =>
      obtain ⟨u, ended, after, account⟩ := follows
      refine ⟨u, (Action.bind_ok required).trans ended, after, ?_⟩
      have whole := account.skip (search.open_unfinished rfl unfinished) a
      simpa only [List.map_cons, traceForms_cons required, declarationsIn_append, did] using whole
  | @repeated stack done rest a new opened =>
    refine ⟨1, fun fuel much scope s searching => ⟨s, ?_⟩⟩
    obtain ⟨fuel, rfl⟩ : ∃ n, fuel = n + 1 := ⟨fuel - 1, by omega⟩
    have first := known a List.mem_cons_self
    exact Action.bind_error (require_repeated first searching new opened fuel scope)
  | @visited stack done middle rest a r new unopened inner outer ih₁ ih₂ =>
    obtain ⟨first, later⟩ := List.forall_mem_cons.mp known
    have inside : ∀ b ∈ a :: stack, b ∉ done := List.forall_mem_cons.mpr ⟨new, unfinished⟩
    have still : ∀ b ∈ a :: stack, b ∉ middle := inner.open_unfinished rfl inside
    obtain ⟨enough₁, runs₁⟩ := ih₁ (g.closed a first) inside
    obtain ⟨enough₂, runs₂⟩ := ih₂ later (open_unfinished_snoc still unopened)
    -- four levels: the require, its module, the module's definition and the literal in it
    refine ⟨enough₁ + enough₂ + 4, fun fuel much scope s searching => ?_⟩
    obtain ⟨fuel, rfl⟩ : ∃ n, fuel = n + 4 := ⟨fuel - 4, by omega⟩
    obtain ⟨t, evaluated, between, account₁⟩ := runs₁ (fuel + 3) (by omega) s.heap.next _
      (searching_openFile searching unopened scope)
    obtain ⟨u, required, closed⟩ := require_visited first searching new unopened evaluated between
      (still a List.mem_cons_self)
    have did := declarationsIn_visited first searching new unopened evaluated between
    have follows := runs₂ (fuel + 4) (by omega) scope u closed
    cases r with
    | error path =>
      obtain ⟨w, failed⟩ := follows
      exact ⟨w, (Action.bind_ok required).trans failed⟩
    | ok done' =>
      obtain ⟨w, ended, after, account₂⟩ := follows
      refine ⟨w, (Action.bind_ok required).trans ended, after, ?_⟩
      have whole := account₁.visit inside unopened inner outer account₂
      simpa only [List.map_cons, traceForms_cons required, declarationsIn_append, did] using whole
  | @failed stack done path rest a new unopened inner ih =>
    have first := known a List.mem_cons_self
    have inside : ∀ b ∈ a :: stack, b ∉ done := List.forall_mem_cons.mpr ⟨new, unfinished⟩
    obtain ⟨enough, runs⟩ := ih (g.closed a first) inside
    refine ⟨enough + 1, fun fuel much scope s searching => ?_⟩
    obtain ⟨fuel, rfl⟩ : ∃ n, fuel = n + 1 := ⟨fuel - 1, by omega⟩
    obtain ⟨t, stopped⟩ := runs fuel (by omega) s.heap.next _
      (searching_openFile searching unopened scope)
    exact ⟨_, Action.bind_error (require_failed first searching new unopened stopped)⟩

theorem searching_fresh {i : Interpreter}
    (found : (Session.start false 1).interpreters[0]? = some i) :
    ((Session.start false 1).stateOf i).Searching [] [] := by
  have reachable := Session.reachable_start false 1
  have member := Array.mem_of_getElem? found
  have idle := reachable.idle i member
  have sound := reachable.sound.stateOf idle
  cases found
  exact ⟨sound, rfl, rfl⟩

/-- A fresh interpreter that requires a file of a library searches the files that it reaches. It
gives a value if and only if no cycle is among them; then exactly these files are cached, and the
forms of each were evaluated once, in order, while it was the innermost one being required.
Otherwise the error names a path that leads from the file to one that is on the path before. -/
theorem require_searches_depth_first (g : Library) (name : String)
    (known : name ∈ g.sources.names) (source : String)
    (asks : Expr.readAll source = .ok [requireForm name]) :
    ∃ enough, ∀ fuel, enough ≤ fuel →
      let run := (Session.start false 1).eval g.loader fuel 0 source
      let calls := (Session.start false 1).trace g.loader fuel 0 source
      ((∃ v, run.1 = .value v) ↔ ¬ ReachesCycle g.requires name) ∧
      (¬ ReachesCycle g.requires name →
        (∃ r, run.2.registries[0]? = some r ∧
          ∀ x, r.files.binds x = true ↔ Reaches g.requires name x) ∧
        (∀ x, Reaches g.requires name x → declarationsIn (some x) calls = (g.file x).forms) ∧
        ∀ x, ¬ Reaches g.requires name x → declarationsIn (some x) calls = []) ∧
      (ReachesCycle g.requires name → ∃ path, run.1 = .error (.eval (.circularRequire path)) ∧
        Circle g.requires path ∧ path.head? = some name) := by
  have given : ∀ x ∈ [name], x ∈ g.sources.names := by simpa using known
  have found : (Session.start false 1).interpreters[0]? = some ⟨0, 0, 0, .idle⟩ := rfl
  have fresh := searching_fresh found
  rcases search_cases g.requires g.closed known with
    ⟨done, search, -, reached, acyclic⟩ | ⟨path, search, circle, first, cyclic⟩
  · obtain ⟨enough, runs⟩ := requires_follow search given nofun
    refine ⟨enough, fun fuel much => ?_⟩
    obtain ⟨t, evaluated, after, account⟩ := runs fuel much 0 _ fresh
    have ended := Session.eval_ok found asks evaluated
    have traced := Session.trace_eq found asks g.loader fuel
    rw [ended, traced]
    refine ⟨?_, ?_, fun cyclic => absurd cyclic acyclic⟩
    · constructor
      · intro _
        exact acyclic
      · intro _
        exact ⟨.nil, rfl⟩
    · intro _
      refine ⟨⟨t.registry, rfl, ?_⟩, ?_, ?_⟩
      · intro x
        rw [Bindings.binds_iff, after.files, reached]
      · intro x reaches
        exact account.finished x ((reached x).mpr reaches) List.not_mem_nil
      · intro x unreached
        refine account.other (some x) nofun fun y same finished => ?_
        exact absurd ((reached x).mp (Option.some.inj same ▸ finished)) unreached
  · obtain ⟨enough, runs⟩ := requires_follow search given nofun
    refine ⟨enough, fun fuel much => ?_⟩
    obtain ⟨t, failed⟩ := runs fuel much 0 _ fresh
    rw [Session.eval_error found asks failed]
    refine ⟨?_, fun acyclic => absurd cyclic acyclic, fun _ => ⟨path, rfl, circle, first⟩⟩
    constructor
    · rintro ⟨v, value⟩
      cases value
    · intro acyclic
      exact absurd cyclic acyclic

/-- A module that exports one constant. -/
def flagFile (requires : List String) : SourceFile where
  requires := requires
  title := "m"
  exports := ["x"]
  definitions := [("x", .boolean true)]
  literal := List.forall_mem_cons.mpr ⟨.boolean true, nofun⟩
  defined := by decide

/-- The tokens of such a file. -/
def flagTokens (requires : List String) : List Token :=
  requires.flatMap (fun name => [⟨.openParen, "("⟩, ⟨.symbol, "require"⟩, ⟨.string, name⟩,
    ⟨.closeParen, ")"⟩]) ++
  [⟨.openParen, "("⟩, ⟨.symbol, "module"⟩, ⟨.symbol, "m"⟩, ⟨.openParen, "("⟩, ⟨.symbol, "export"⟩,
    ⟨.symbol, "x"⟩, ⟨.closeParen, ")"⟩, ⟨.openParen, "("⟩, ⟨.symbol, "define"⟩, ⟨.symbol, "x"⟩,
    ⟨.boolean, "true"⟩, ⟨.closeParen, ")"⟩, ⟨.closeParen, ")"⟩]

def flagRequires (name : String) : List String :=
  if name = "a" then ["b", "c", "b"] else if name = "b" then ["c"]
  else if name = "d" then ["a", "d"] else []

def flagSources : Bindings String :=
  ⟨[("a", "(require \"b\") (require \"c\") (require \"b\") (module m (export x) (define x true))"),
    ("b", "(require \"c\") (module m (export x) (define x true))"),
    ("c", "(module m (export x) (define x true)) ; a constant"),
    ("d", "(require \"a\") (require \"d\") (module m (export x) (define x true))")]⟩

theorem flagSources_read {name text : String} (found : flagSources.find? name = some text) :
    Expr.readAll text = .ok (flagFile (flagRequires name)).forms := by
  simp only [flagSources, Bindings.find?, Bindings.findIn] at found
  split at found
  · subst name
    cases found
    exact Expr.readAll_of_tokens (flagTokens ["b", "c", "b"]) (by decide +kernel) rfl
  · split at found
    · subst name
      cases found
      exact Expr.readAll_of_tokens (flagTokens ["c"]) (by decide +kernel) rfl
    · split at found
      · subst name
        cases found
        exact Expr.readAll_of_tokens (flagTokens []) (by decide +kernel) rfl
      · split at found
        · subst name
          cases found
          exact Expr.readAll_of_tokens (flagTokens ["a", "d"]) (by decide +kernel) rfl
        · cases found

theorem flagSources_closed : ∀ name ∈ flagSources.names,
    ∀ d ∈ (flagFile (flagRequires name)).requires, d ∈ flagSources.names := by
  decide

/-- A file that requires two others, of which one requires the other; and a file that requires the
first one and itself. -/
def flags : Library where
  sources := flagSources
  file name := flagFile (flagRequires name)
  reads := flagSources_read
  closed := flagSources_closed

theorem flags_acyclic : ¬ ReachesCycle flags.requires "a" := by
  have c : Ordered flags.requires ["c"] := ordered_nil.snoc (by decide) (by decide)
  have b : Ordered flags.requires ["c", "b"] := c.snoc (by decide) (by decide)
  have a : Ordered flags.requires ["c", "b", "a"] := b.snoc (by decide) (by decide)
  rintro ⟨x, reaches, cycle⟩
  exact a.acyclic (a.closed (by decide) reaches) cycle

theorem flags_cyclic : ReachesCycle flags.requires "d" :=
  ⟨"d", .refl, .single (show "d" ∈ flags.requires "d" by decide)⟩

/-- Each shared file is evaluated once; the file that requires itself is found out. -/
theorem require_searches_flags_depth_first :
    "a" ∈ flags.sources.names ∧ Expr.readAll "(require \"a\")" = .ok [requireForm "a"] ∧
    "d" ∈ flags.sources.names ∧ Expr.readAll "(require \"d\")" = .ok [requireForm "d"] ∧
    ∃ enough, ∀ fuel, enough ≤ fuel →
      let s := Session.start false 1
      (∃ v, (s.eval flags.loader fuel 0 "(require \"a\")").1 = .value v) ∧
      declarationsIn (some "c") (s.trace flags.loader fuel 0 "(require \"a\")") =
        (flags.file "c").forms ∧
      ∃ path, (s.eval flags.loader fuel 0 "(require \"d\")").1 =
          .error (.eval (.circularRequire path)) ∧
        Circle flags.requires path ∧ path.head? = some "d" := by
  have readsA : Expr.readAll "(require \"a\")" = .ok [requireForm "a"] :=
    Expr.readAll_of_tokens [⟨.openParen, "("⟩, ⟨.symbol, "require"⟩, ⟨.string, "a"⟩,
      ⟨.closeParen, ")"⟩] (by decide +kernel) rfl
  have readsD : Expr.readAll "(require \"d\")" = .ok [requireForm "d"] :=
    Expr.readAll_of_tokens [⟨.openParen, "("⟩, ⟨.symbol, "require"⟩, ⟨.string, "d"⟩,
      ⟨.closeParen, ")"⟩] (by decide +kernel) rfl
  have knownA : "a" ∈ flags.sources.names := by decide
  have knownD : "d" ∈ flags.sources.names := by decide
  obtain ⟨enough₁, runs₁⟩ := require_searches_depth_first flags "a" knownA _ readsA
  obtain ⟨enough₂, runs₂⟩ := require_searches_depth_first flags "d" knownD _ readsD
  refine ⟨knownA, readsA, knownD, readsD, enough₁ + enough₂, fun fuel much => ?_⟩
  obtain ⟨value, search, -⟩ := runs₁ fuel (by omega)
  obtain ⟨-, -, circle⟩ := runs₂ fuel (by omega)
  have shared : Reaches flags.requires "a" "c" :=
    .single (show "c" ∈ flags.requires "a" by decide)
  exact ⟨value.mpr flags_acyclic, (search flags_acyclic).2.1 "c" shared, circle flags_cyclic⟩

end Library

end ModularLisp
