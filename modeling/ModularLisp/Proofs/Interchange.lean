import ModularLisp.Proofs.Directories
import ModularLisp.Proofs.Isolation

/-!
# The two loaders are interchangeable

A program cannot tell a table of sources from a directory that holds them in UTF-8, as long as it
names files by one component and the host can look them up. All evaluations have the same values,
fail with errors of the same kinds, and leave the same bindings; only errors of the loader and of
circles, which name files and places, have other messages.
-/

namespace ModularLisp

open List

/-- The same value, or errors that agree. -/
inductive Outcome.Agrees : Outcome → Outcome → Prop
  | value (v : Value) : Agrees (.value v) (.value v)
  | error {e e' : Error} (errors : e.Agrees e') : Agrees (.error e) (.error e')
  | outOfFuel : Agrees .outOfFuel .outOfFuel

theorem Outcome.Agrees.errorKind?_eq {x y : Outcome} (agrees : x.Agrees y) :
    x.errorKind? = y.errorKind? := by
  cases agrees with
  | value | outOfFuel => rfl
  | error errors => exact congrArg some errors.kind

namespace Session

/-- The outcomes of the evaluations one after the other, and the session after each of them. -/
def stages (loader : Option Loader) (fuel : Nat) (s : Session) :
    List (Nat × String) → List (Outcome × Session)
  | [] => []
  | (index, source) :: steps =>
    let stage := s.eval loader fuel index source
    stage :: stages loader fuel stage.2 steps

/-- The outcomes agree, and afterwards all frames, those of the roots among them, bind the same. -/
structure SameStage (x y : Outcome × Session) : Prop where
  outcome : x.1.Agrees y.1
  heap : x.2.heap = y.2.heap
  rootBindings : ∀ index, x.2.rootBindings index = y.2.rootBindings index

structure Renamed (r : Renaming) (s t : Session) : Prop where
  heap : s.heap = t.heap
  fresh : s.fresh = t.fresh
  size : s.registries.size = t.registries.size
  registries : ∀ k : Nat,
    (s.registries[k]?.getD .empty).Renamed r (t.registries[k]?.getD .empty)
  interpreters : s.interpreters = t.interpreters
  idle : ∀ i ∈ s.interpreters, i.progress = .idle
  code : s.heap.All (Value.AsksFor r.files)

namespace Renamed

variable {r : Renaming} {s t : Session} {l m : Loader}

theorem empty_registry (r : Renaming) : Registry.empty.Renamed r .empty := ⟨rfl, fun _ => rfl⟩

theorem empty (r : Renaming) : Session.empty.Renamed r .empty where
  heap := rfl
  fresh := rfl
  size := rfl
  registries _ := empty_registry r
  interpreters := rfl
  idle i member := absurd member (Array.not_mem_empty i)
  code _ := Bindings.all_empty

theorem addRegistry (sessions : s.Renamed r t) : s.addRegistry.Renamed r t.addRegistry :=
  { sessions with
    size := by
      rw [Session.addRegistry, Session.addRegistry, Array.size_push, Array.size_push, sessions.size]
    registries := by
      intro k
      simp only [Session.addRegistry, Array.getElem?_push, ← sessions.size]
      split
      · exact empty_registry r
      · exact sessions.registries k }

theorem addInterpreter (sessions : s.Renamed r t) (registry : Nat) :
    (s.addInterpreter registry).Renamed r (t.addInterpreter registry) where
  heap := by simp only [Session.addInterpreter, sessions.heap, sessions.fresh]
  fresh := congrArg (· + 1) sessions.fresh
  size := sessions.size
  registries := sessions.registries
  interpreters := by
    simp only [Session.addInterpreter, sessions.heap, sessions.fresh, sessions.interpreters]
  idle i member := by
    rcases Array.mem_push.mp member with old | rfl
    · exact sessions.idle i old
    · rfl
  code := by
    refine sessions.code.push (Bindings.all_empty.insertAll fun entry member => ?_)
    obtain ⟨b, -, rfl⟩ := List.mem_map.mp member
    exact .builtin _ b

/-- Interpreters that nothing has been evaluated on. -/
theorem start (r : Renaming) (shared : Bool) (count : Nat) :
    (Session.start shared count).Renamed r (Session.start shared count) := by
  induction count with
  | zero =>
    cases shared with
    | false => exact empty r
    | true => exact (empty r).addRegistry
  | succ count ih =>
    cases shared with
    | false => exact ih.addRegistry.addInterpreter count
    | true => exact ih.addInterpreter 0

theorem stateOf (sessions : s.Renamed r t) {i : Interpreter} (idle : i.progress = .idle) :
    (s.stateOf i).Renamed r (t.stateOf i) where
  heap := sessions.heap
  fresh := sessions.fresh
  registry := sessions.registries i.registry
  progress := by
    rw [Session.stateOf, Session.stateOf, idle]
    exact ⟨rfl, rfl, rfl⟩
  code := sessions.code

theorem update (sessions : s.Renamed r t) {s' t' : State} (states : s'.Renamed r t')
    (idle : s'.progress = .idle) (index : Nat) (i : Interpreter) :
    (s.update index i s').Renamed r (t.update index i t') where
  heap := states.heap
  fresh := states.fresh
  size := by
    simp only [Session.update, Array.size_setIfInBounds, sessions.size]
  registries := by
    intro k
    simp only [Session.update, Array.getElem?_setIfInBounds, ← sessions.size]
    split
    · split
      · exact states.registry
      · exact empty_registry r
    · exact sessions.registries k
  interpreters := by
    simp only [Session.update, sessions.interpreters, idle, states.progress.idle idle]
  idle j known := by
    rcases mem_interpreters_update known with old | rfl
    · exact sessions.idle j old
    · exact idle
  code := states.code

theorem evalSource (loaders : l.Renamed r m) (fuel : Nat) {source : String}
    (asks : Expr.TextAsksFor r.files source) (i : Interpreter) :
    (Session.evalSource (some l) fuel source i).Renamed r (Value.AsksFor r.files)
      (Session.evalSource (some m) fuel source i) := by
  rw [Session.evalSource, Session.evalSource]
  cases read : Expr.readAll source with
  | ok es => exact Evaluation.evalForms_renamed loaders fuel i.root (asks es read)
  | error e => exact Action.renamed_throw (.refl _)

/-- One evaluation on either side. -/
theorem eval (sessions : s.Renamed r t) (loaders : l.Renamed r m) (fuel index : Nat)
    {source : String} (asks : Expr.TextAsksFor r.files source) :
    (s.eval (some l) fuel index source).1.Agrees (t.eval (some m) fuel index source).1 ∧
      (s.eval (some l) fuel index source).2.Renamed r (t.eval (some m) fuel index source).2 := by
  simp only [Session.eval, perform, ← sessions.interpreters]
  cases found : s.interpreters[index]? with
  | none => exact ⟨.value .nil, sessions⟩
  | some i =>
    have idle : i.progress = .idle := sessions.idle i (Array.mem_of_getElem? found)
    have after : ∀ {u}, (Session.evalSource (some l) fuel source i).Ends (s.stateOf i) u →
        u.progress = .idle := by
      intro u ended
      have kept := (evalSource_within (some l) fuel source i _ u ended).progress_kept
      have begun : (s.stateOf i).progress = .idle := idle
      rw [begun] at kept
      exact kept.idle
    have came := evalSource loaders fuel asks i _ _ (sessions.stateOf idle)
    dsimp only
    generalize hx : Session.evalSource (some l) fuel source i (s.stateOf i) = rx at came
    generalize hy : Session.evalSource (some m) fuel source i (t.stateOf i) = ry at came
    cases came with
    | ok states fine =>
      exact ⟨.value _, sessions.update states (after (Action.ends_of_ok hx)) index i⟩
    | error states errors =>
      exact ⟨.error errors, sessions.update states (after (Action.ends_of_error hx)) index i⟩
    | outOfFuel => exact ⟨.outOfFuel, sessions⟩

theorem sameStage (sessions : s.Renamed r t) {x y : Outcome} (outcomes : x.Agrees y) :
    SameStage (x, s) (y, t) where
  outcome := outcomes
  heap := sessions.heap
  rootBindings index := by
    simp only [Session.rootBindings, sessions.heap, sessions.interpreters]

/-- The run lemma. -/
theorem stages (sessions : s.Renamed r t) (loaders : l.Renamed r m) (fuel : Nat)
    {steps : List (Nat × String)} (asks : ∀ step ∈ steps, Expr.TextAsksFor r.files step.2) :
    Forall₂ SameStage (s.stages (some l) fuel steps) (t.stages (some m) fuel steps) := by
  induction steps generalizing s t with
  | nil => exact .nil
  | cons step rest ih =>
    obtain ⟨first, later⟩ := List.forall_mem_cons.mp asks
    obtain ⟨outcomes, ended⟩ := sessions.eval loaders fuel step.1 first
    exact .cons (ended.sameStage outcomes) (ih ended later)

end Renamed

variable {t : SourceTree} {dir : Path} {sources : Bindings String} {steps : List (Nat × String)}

/-- The two loaders are interchangeable: over a table of sources without carriage returns, and over
a directory that holds these in UTF-8 and in which the host can look them up, the same evaluations,
which name files by one component, come out the same at every step, up to what errors say of files
and roots. -/
theorem loaders_interchangeable (holds : t.Holds dir sources)
    (looks : SourceTree.LooksUp dir sources)
    (texts : ∀ name text, sources.find? name = some text →
      '\r' ∉ text.toList ∧ Expr.TextAsksFor IsComponent text)
    (asks : ∀ step ∈ steps, Expr.TextAsksFor IsComponent step.2) (shared : Bool)
    (count fuel : Nat) :
    Forall₂ SameStage ((start shared count).stages (some (.ofTable sources)) fuel steps)
      ((start shared count).stages (some (.ofTree t)) fuel steps) := by
  obtain ⟨place, loaders⟩ := Loader.ofTable_renamed holds looks texts
  exact (Renamed.start (.into place) shared count).stages loaders fuel asks

/-- A file that loads another one, one that requires itself, and one that is missing. -/
theorem loaders_interchangeable_over_nested_files :
    let sources : Bindings String :=
      .ofList [("f", "(load \"g\") (module m (export x) (define x y))"),
        ("g", "(define y \"é\")"), ("c", "(require \"c\")")]
    let dir : Path := .ofString "../w/."
    let t : SourceTree := ⟨.directory ⟨[("w", .holding sources)]⟩, ["w"], [dir]⟩
    let steps := [(0, "(require \"f\") x"), (0, "(require \"c\")"), (0, "(load \"h\")"),
      (0, "(load \"f\") y")]
    let memory := (start false 1).stages (some (.ofTable sources)) 6 steps
    let disk := (start false 1).stages (some (.ofTree t)) 6 steps
    t.Holds dir sources ∧ SourceTree.LooksUp dir sources ∧
      (∀ name text, sources.find? name = some text →
        '\r' ∉ text.toList ∧ Expr.TextAsksFor IsComponent text) ∧
      (∀ step ∈ steps, Expr.TextAsksFor IsComponent step.2) ∧
      memory.map (·.1.errorKind?) = [none, some .circularRequire, some .loader, none] ∧
      Forall₂ SameStage memory disk := by
  intro sources dir t steps memory disk
  have named : ∀ name ∈ sources.names, IsName name := by decide +kernel
  have arrived : t.root.locate t.workingDirectory dir = .arrived ["w"] := by decide +kernel
  have holds : t.Holds dir sources := SourceTree.holds_holding rfl arrived rfl named
  have sizes : ∀ name ∈ sources.names,
      (dir.join (.ofString name)).toString.utf8ByteSize ≤ Node.longestPath := by decide +kernel
  have looks : SourceTree.LooksUp dir sources := fun name _ known =>
    sizes name (Bindings.binds_iff.mp (congrArg Option.isSome known))
  have texts : sources.All fun text => '\r' ∉ text.toList ∧ Expr.TextAsksFor IsComponent text := by
    unfold Bindings.All
    decide +kernel
  have asks : ∀ step ∈ steps, Expr.TextAsksFor IsComponent step.2 := by decide +kernel
  exact ⟨holds, looks, fun _ _ known => texts.find? known, asks, by decide +kernel,
    loaders_interchangeable holds looks (fun _ _ known => texts.find? known) asks false 1 6⟩

/-- A load of a file that the loader does not find fails with the loader's error. -/
theorem eval_load_missing {s : Session} {index : Nat} {i : Interpreter} {source f : String}
    {l : Loader} {failure : LoadFailure} (found : s.interpreters[index]? = some i)
    (read : Expr.readAll source = .ok [.loadDecl f]) (missing : l.canonicalName f = .error failure)
    (fuel : Nat) : (s.eval (some l) (fuel + 1) index source).1 = .error (failure.toError f) := by
  have failed : Evaluation.evalForms (some l) (fuel + 1) i.root [.loadDecl f] (s.stateOf i) =
      .error (failure.toError f) (s.stateOf i) := by
    have loader : Evaluation.theLoader (some l) f (s.stateOf i) = .ok l (s.stateOf i) := rfl
    have unknown : Evaluation.fromLoader f (l.canonicalName f) (s.stateOf i) =
        .error (failure.toError f) (s.stateOf i) := by
      rw [missing]
      rfl
    exact Action.bind_error ((Action.bind_ok loader).trans (Action.bind_error unknown))
  rw [eval_error found read failed]

/-- Into the directory `d` and back `n` times, then along the other parts. -/
def detours (n : Nat) (parts : List String) : Path :=
  ⟨.relative, (replicate n ["d", ".."]).flatten ++ parts⟩

theorem size_detours (n : Nat) {parts : List String} (nonempty : parts ≠ [])
    (shown : String.intercalate "/" parts ≠ "") :
    (detours n parts).toString.utf8ByteSize =
      5 * n + (String.intercalate "/" parts).utf8ByteSize := by
  have sizes : ∀ n, (String.intercalate "/"
      ((replicate n ["d", ".."]).flatten ++ parts)).utf8ByteSize =
      5 * n + (String.intercalate "/" parts).utf8ByteSize := by
    intro n
    induction n with
    | zero => simp
    | succ n ih =>
      have more : (replicate n ["d", ".."]).flatten ++ parts ≠ [] :=
        List.append_ne_nil_of_right_ne_nil _ nonempty
      rw [replicate_succ, flatten_cons, List.append_assoc]
      simp only [List.cons_append, List.nil_append, String.intercalate_cons_cons,
        String.intercalate_cons_of_ne_nil more, String.utf8ByteSize_append, ih]
      have letters : "d".utf8ByteSize = 1 ∧ "..".utf8ByteSize = 2 ∧ "/".utf8ByteSize = 1 := by
        decide
      omega
  have seen : String.intercalate "/" ((replicate n ["d", ".."]).flatten ++ parts) ≠ "" := by
    intro empty
    have none := sizes n
    rw [empty] at none
    exact shown (String.utf8ByteSize_eq_zero_iff.mp (Nat.eq_zero_of_add_eq_zero_left none.symm))
  have text : (detours n parts).toString =
      String.intercalate "/" ((replicate n ["d", ".."]).flatten ++ parts) := by
    have joined : Anchor.relative.text ++ String.intercalate "/" (detours n parts).parts =
        String.intercalate "/" (detours n parts).parts := String.empty_append
    rw [Path.toString]
    exact (congrArg _ joined).trans (if_neg seen)
  rw [text, sizes]

theorem null_not_mem_detours (n : Nat) : '\x00' ∉ (detours n ["d"]).toString.toList := by
  intro null
  rcases Path.of_mem_toString null with point | slash | ⟨part, known, inside⟩
  · exact absurd point (by decide)
  · exact absurd slash (by decide)
  · have simple : part = "d" ∨ part = ".." := by
      simp only [detours, mem_append, mem_flatten, mem_replicate, mem_singleton] at known
      rcases known with ⟨_, ⟨-, rfl⟩, member⟩ | rfl
      · simpa using member
      · exact Or.inl rfl
    rcases simple with rfl | rfl
    · exact absurd inside (by decide)
    · exact absurd inside (by decide)

/-- Detours lead where the other parts lead. -/
theorem walk_detours {root : Node} {n : Nat} {parts : List String}
    (here : ((root.at? []).map Node.isDirectory).getD false = true)
    (there : ((root.at? ["d"]).map Node.isDirectory).getD false = true) :
    root.walk [] (detours n parts).parts = root.walk [] parts := by
  have proper : IsName "d" := by decide +kernel
  induction n with
  | zero => rfl
  | succ n ih => exact (Node.walk_detour proper here there).trans ih

/-- Where the host can look up the directory, but not the file in it because this path is too long,
only the table serves the file. -/
theorem loaders_differ_under_long_path :
    let sources : Bindings String := ⟨[("f.lisp", "1")]⟩
    let dir := detours 818 ["d"]
    let t : SourceTree := ⟨.directory ⟨[("d", .holding sources)]⟩, [], [dir]⟩
    let steps := [(0, "(load \"f.lisp\")")]
    t.Holds dir sources ∧
      (∀ name text, sources.find? name = some text →
        '\r' ∉ text.toList ∧ Expr.TextAsksFor IsComponent text) ∧
      (∀ step ∈ steps, Expr.TextAsksFor IsComponent step.2) ∧
      ¬ Forall₂ SameStage ((start false 1).stages (some (.ofTable sources)) 2 steps)
        ((start false 1).stages (some (.ofTree t)) 2 steps) := by
  intro sources dir t steps
  have named : ∀ name ∈ sources.names, IsName name := by decide +kernel
  have texts : sources.All fun text => '\r' ∉ text.toList ∧ Expr.TextAsksFor IsComponent text := by
    unfold Bindings.All
    decide +kernel
  have arrived : t.root.locate t.workingDirectory dir = .arrived ["d"] := by
    have short : dir.toString.utf8ByteSize ≤ Node.longestPath := by
      rw [size_detours 818 (by decide) (by decide)]
      decide
    rw [Node.locate_of_short (null_not_mem_detours 818) short]
    exact walk_detours rfl rfl
  have holds : t.Holds dir sources := SourceTree.holds_holding rfl arrived rfl named
  have component : IsComponent "f.lisp" := by decide +kernel
  have long : Node.longestPath < (dir.join (.ofString "f.lisp")).toString.utf8ByteSize := by
    have joined : dir.join (.ofString "f.lisp") = detours 818 ["d", "f.lisp"] := by
      rw [Path.join_component component]
      simp only [dir, detours, List.append_assoc]
      rfl
    rw [joined, size_detours 818 (by decide) (by decide)]
    decide
  have lost := SourceTree.resolve_component_long holds.root component
    (Path.null_not_mem_join (null_not_mem_detours 818) (named "f.lisp" (by decide))) long
  have missing : (Loader.ofTree t).canonicalName "f.lisp" =
      .error (SourceTree.nameTooLong (dir.join (.ofString "f.lisp"))) := by
    simp only [Loader.ofTree, lost]
    rfl
  refine ⟨holds, fun _ _ known => texts.find? known, by decide +kernel, fun same => ?_⟩
  obtain ⟨first, -⟩ := List.forall₂_cons.mp same
  have kinds := first.outcome.errorKind?_eq
  rw [eval_load_missing rfl rfl missing 1] at kinds
  exact absurd kinds (by decide +kernel)

end Session

end ModularLisp
