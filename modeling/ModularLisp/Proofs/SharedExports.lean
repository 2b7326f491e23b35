import ModularLisp.Proofs.FileCache

/-!
# What a require shares

However a file is required, there is one set of bindings to share: what its modules export, as it is
bound in their scopes now, and of two exports of one name the later one. A plain require binds all
of it in its scope, `:as` binds it as one namespace, and `:only` binds the names asked for or, when
one of them is missing, none. Binding a name to the value it has already changes nothing, so neither
does the same require at once again.
-/

namespace ModularLisp

namespace Bindings

variable {α : Type} {b : Bindings α} {name : String} {v : α}

theorem find?_of_mem (distinct : b.names.Nodup) {entry : String × α} (member : entry ∈ b.entries) :
    b.find? entry.1 = some entry.2 := by
  obtain ⟨entries⟩ := b
  change findIn entry.1 entries = some entry.2
  change (entries.map (·.1)).Nodup at distinct
  change entry ∈ entries at member
  induction entries with
  | nil => cases member
  | cons first rest ih =>
    rw [List.map_cons, List.nodup_cons] at distinct
    rcases List.mem_cons.mp member with rfl | later
    · simp [findIn]
    · have other : first.1 ≠ entry.1 := fun same =>
        distinct.1 (same ▸ List.mem_map_of_mem later)
      simpa [findIn, other] using ih distinct.2 later

end Bindings

namespace Heap

variable {h k : Heap} {scope : FrameId} {name : String} {v : Value} {new : Bindings Value}

theorem bindAll_of_find? {entries : List (String × Value)}
    (found : ∀ entry ∈ entries, (h.bindings scope).find? entry.1 = some entry.2) :
    h.bindAll scope entries = h := by
  induction entries with
  | nil => rfl
  | cons entry rest ih =>
    obtain ⟨first, later⟩ := List.forall_mem_cons.mp found
    refine (congrArg (bindAll · scope rest) (bind_of_find? first)).trans ?_
    exact ih later

/-- The frame `scope` has taken over the bindings `new`, and nothing else is different. -/
structure Gains (scope : FrameId) (new : Bindings Value) (h k : Heap) : Prop where
  next : k.next = h.next
  outer : ∀ i, k.outer i = h.outer i
  others : ∀ i, i ≠ scope → k.bindings i = h.bindings i
  own : ∀ name, (k.bindings scope).find? name =
    (new.find? name).or ((h.bindings scope).find? name)

theorem gains_bindAll (existing : scope < h.next) (distinct : new.names.Nodup) :
    Gains scope new h (h.bindAll scope new.entries) := by
  have apart : ∀ (entries : List (String × Value)) (h : Heap),
      (h.bindAll scope entries).next = h.next ∧
      (∀ i, (h.bindAll scope entries).outer i = h.outer i) ∧
      ∀ i, i ≠ scope → (h.bindAll scope entries).bindings i = h.bindings i := by
    intro entries
    induction entries with
    | nil => exact fun h => ⟨rfl, fun _ => rfl, fun _ _ => rfl⟩
    | cons entry rest ih =>
      intro h
      obtain ⟨next, outer, others⟩ := ih (h.bind scope entry.1 entry.2)
      refine ⟨next.trans (next_bind ..), fun i => (outer i).trans (outer_bind ..), ?_⟩
      exact fun i other => (others i other).trans (bindings_bind_of_ne (Ne.symm other) ..)
  obtain ⟨next, outer, others⟩ := apart new.entries h
  refine ⟨next, outer, others, fun name => ?_⟩
  rw [bindings_bindAll existing]
  exact Bindings.find?_insertAll _ distinct name

theorem gains_bind (existing : scope < h.next) (name : String) (v : Value) :
    Gains scope (.ofList [(name, v)]) h (h.bind scope name v) :=
  gains_bindAll existing (List.pairwise_singleton _ name)

/-- What was bound stays bound. -/
theorem Gains.kept (gains : Gains scope new h k) {m : Module} (bound : m.Bound h) : m.Bound k := by
  intro name listed
  obtain ⟨nonempty, found⟩ := bound name listed
  refine ⟨nonempty, ?_⟩
  by_cases own : m.scope = scope
  · rw [Bindings.binds, own, gains.own]
    rw [Bindings.binds, own] at found
    cases new.find? name with
    | some v => rfl
    | none => exact found
  · rw [gains.others m.scope own]
    exact found

end Heap

namespace Module

variable {ms : List Module} {h k : Heap} {scope : FrameId} {exports later new : Bindings Value}

/-- Exports that a scope has taken over are exported with the same values afterwards, also when the
scope belongs to one of the modules. -/
theorem exported_after_gains (bound : ∀ m ∈ ms, m.Bound h)
    (exported : exportedByAll ms h = .ok exports) (gains : Heap.Gains scope new h k)
    (shared : ∀ name v, new.find? name = some v → exports.find? name = some v)
    (after : exportedByAll ms k = .ok later) :
    ∀ name v, new.find? name = some v → later.find? name = some v := by
  intro name v found
  have before := shared name v found
  obtain ⟨e, ok, -, finds⟩ := exportedByAll_of_bound bound
  cases exported.symm.trans ok
  obtain ⟨e, ok, -, laterFinds⟩ := exportedByAll_of_bound fun m held => gains.kept (bound m held)
  cases after.symm.trans ok
  rw [finds] at before
  rw [laterFinds]
  cases last : ms.reverse.find? fun m => name ∈ m.exports with
  | none =>
    rw [last] at before
    cases before
  | some m =>
    rw [last] at before
    change (h.bindings m.scope).find? name = some v at before
    change (k.bindings m.scope).find? name = some v
    by_cases own : m.scope = scope
    · rw [own, gains.own, found]
      rfl
    · rw [gains.others m.scope own]
      exact before

end Module

namespace Evaluation

open ModularLisp.Action

section Choice

variable {filename : String} {exports : Bindings Value} {names : List String}

/-- Names that are all there are chosen, however often each is asked for. -/
theorem choose_ok (filename : String) (all : ∀ name ∈ names, exports.binds name = true) :
    ∃ chosen, choose filename exports names = .ok chosen ∧ chosen.names.Nodup ∧
      ∀ name, chosen.find? name = if name ∈ names then exports.find? name else none :=
  Module.exported_fold List.nodup_nil all

/-- The first name that is missing is the one that is refused. -/
theorem choose_missing {name : String}
    (missing : names.find? (fun name => !exports.binds name) = some name) :
    choose filename exports names = .error (.fileNotExporting filename name) := by
  rw [choose]
  generalize Bindings.empty = b
  induction names generalizing b with
  | nil => cases missing
  | cons first rest ih =>
    rw [List.foldlM_cons]
    rw [List.find?_cons] at missing
    cases found : exports.find? first with
    | none =>
      simp only [Bindings.binds, found, Option.isSome_none, Bool.not_false] at missing
      cases missing
      rfl
    | some v =>
      simp only [Bindings.binds, found, Option.isSome_some, Bool.not_true] at missing
      exact ih missing (b.insert first v)

end Choice

section Sharing

variable {filename : String} {ms : List Module} {scope : FrameId} {s : State}
  {exports : Bindings Value}

theorem shareExports_eq (exported : Module.exportedByAll ms s.heap = .ok exports)
    (visibility : Visibility) : shareExports filename visibility ms scope s =
      (makeVisible filename visibility exports scope >>= fun _ => Pure.pure .nil) s := by
  have read : Action.exported ms s = .ok exports s := exported_eq_ok.mpr ⟨exported, rfl⟩
  exact bind_ok read

theorem shareExports_all (exported : Module.exportedByAll ms s.heap = .ok exports)
    (named : exports.find? "" = none) : shareExports filename .all ms scope s =
      .ok .nil { s with heap := s.heap.bindAll scope exports.entries } := by
  rw [shareExports_eq exported]
  exact bind_ok (defineAll_ok (Bindings.ne_of_mem named) scope s)

theorem shareExports_qualified (exported : Module.exportedByAll ms s.heap = .ok exports)
    {qualifier : String} (nonempty : qualifier ≠ "") :
    shareExports filename (.qualified qualifier) ms scope s = .ok .nil
      { s with
        heap := s.heap.bind scope qualifier (.nameSpace s.fresh qualifier exports)
        fresh := s.fresh + 1 } := by
  have made : makeNameSpace qualifier exports s =
      .ok (.nameSpace s.fresh qualifier exports) { s with fresh := s.fresh + 1 } := rfl
  have labelled : (Label.text qualifier).name? = some qualifier := if_neg nonempty
  rw [shareExports_eq exported, makeVisible, bind_assoc, bind_ok made]
  simp only [define, labelled]
  rfl

theorem shareExports_only (exported : Module.exportedByAll ms s.heap = .ok exports)
    (named : exports.find? "" = none) {names : List String} {chosen : Bindings Value}
    (choice : choose filename exports names = .ok chosen) :
    shareExports filename (.only names) ms scope s =
      .ok .nil { s with heap := s.heap.bindAll scope chosen.entries } := by
  have read : lift (choose filename exports names) s = .ok chosen s := by rw [choice]; rfl
  rw [shareExports_eq exported, makeVisible, bind_assoc, bind_ok read]
  exact bind_ok (defineAll_ok (Bindings.ne_of_mem (choose_named named choice)) scope s)

/-- A name that is missing stops the require before anything is bound. -/
theorem shareExports_missing (exported : Module.exportedByAll ms s.heap = .ok exports)
    {names : List String} {name : String}
    (missing : names.find? (fun name => !exports.binds name) = some name) :
    shareExports filename (.only names) ms scope s =
      .error (.eval (.fileNotExporting filename name)) s := by
  have stopped : lift (choose filename exports names) s =
      .error (.eval (.fileNotExporting filename name)) s := by rw [choose_missing missing]; rfl
  rw [shareExports_eq exported, makeVisible, bind_assoc]
  exact bind_error stopped

end Sharing

section Again

variable {loader : Option Loader} {ev : Evaluator} {filename : String} {scope : FrameId}
  {s t u : State} {ms : List Module}

/-- The modules that a require has found are found again, by any evaluator and from any scope. -/
theorem requiredModules_again (parts : ∀ e scope, (ev e scope).Within scope)
    (available : requiredModules loader ev filename scope s = .ok ms t)
    (same : u.registry = t.registry) (ev' : Evaluator) (scope' : FrameId) :
    requiredModules loader ev' filename scope' u = .ok ms u := by
  cases loader with
  | none => cases available
  | some l =>
    cases canonical : l.canonicalName filename with
    | error failure => cases (requiredModules_unknown canonical).1.symm.trans available
    | ok key =>
      have cached : t.Caches key ms := caches_of_ok parts canonical available
      rw [State.Caches, ← same] at cached
      exact requiredModules_cached canonical cached

theorem eval_requireDecl {fuel : Nat} (available :
    requiredModules loader (eval loader fuel) filename scope s = .ok ms t)
    (visibility : Visibility) : eval loader (fuel + 1) (.requireDecl filename visibility) scope s =
      shareExports filename visibility ms scope t :=
  bind_ok available

end Again

/-- The require `e` succeeds in `s`, and all that differs from `t` afterwards is that `scope` has
taken over the bindings `new`. At once again, it changes nothing. -/
structure Shares (loader : Option Loader) (fuel : Nat) (e : Expr) (scope : FrameId)
    (new : Bindings Value) (s t : State) (k : Heap) : Prop where
  gains : Heap.Gains scope new t.heap k
  done : eval loader fuel e scope s = .ok .nil { t with heap := k }
  again : ∀ n, eval loader (n + 1) e scope { t with heap := k } = .ok .nil { t with heap := k }

section Shares

variable {loader : Option Loader} {fuel : Nat} {filename : String} {scope : FrameId} {s t : State}
  {ms : List Module} {exports new : Bindings Value}

/-- `later` exports the same names as `exports`, and those of `new` with the values in `new`. -/
structure StillExports (exports new later : Bindings Value) : Prop where
  named : later.find? "" = none
  distinct : later.names.Nodup
  names : ∀ name, later.binds name = exports.binds name
  values : ∀ name v, new.find? name = some v → later.find? name = some v

/-- What the modules of a file export is the same after `scope` has taken over some of it. -/
theorem exported_again (bound : ∀ m ∈ ms, m.Bound t.heap)
    (exported : Module.exportedByAll ms t.heap = .ok exports) {k : Heap}
    (gains : Heap.Gains scope new t.heap k)
    (shared : ∀ name v, new.find? name = some v → exports.find? name = some v) :
    ∃ later, Module.exportedByAll ms k = .ok later ∧ StillExports exports new later := by
  have kept : ∀ m ∈ ms, m.Bound k := fun m held => gains.kept (bound m held)
  obtain ⟨later, ok, distinct, -⟩ := Module.exportedByAll_of_bound kept
  refine ⟨later, ok, Module.exported_named kept ok, distinct, fun name => ?_,
    Module.exported_after_gains bound exported gains shared ok⟩
  rw [Bool.eq_iff_iff, Module.binds_exportedByAll kept ok,
    Module.binds_exportedByAll bound exported]

/-- Whatever a visibility takes from the exports while they are there, a require binds once. -/
theorem shares_of_takes (visibility : Visibility) (available :
      requiredModules loader (eval loader fuel) filename scope s = .ok ms t)
    (bound : ∀ m ∈ ms, m.Bound t.heap) (existing : scope < t.heap.next)
    (exported : Module.exportedByAll ms t.heap = .ok exports)
    (shared : ∀ name v, new.find? name = some v → exports.find? name = some v)
    (takes : ∀ later u, Module.exportedByAll ms u.heap = .ok later →
      StillExports exports new later → ∃ b : Bindings Value, b.names.Nodup ∧
        (∀ name, b.find? name = new.find? name) ∧
        shareExports filename visibility ms scope u =
          .ok .nil { u with heap := u.heap.bindAll scope b.entries }) :
    ∃ k, Shares loader (fuel + 1) (.requireDecl filename visibility) scope new s t k := by
  obtain ⟨e, ok, distinct, -⟩ := Module.exportedByAll_of_bound bound
  cases exported.symm.trans ok
  have now : StillExports exports new exports :=
    ⟨Module.exported_named bound exported, distinct, fun _ => rfl, shared⟩
  obtain ⟨b, bDistinct, same, done⟩ := takes exports t exported now
  have own := Heap.gains_bindAll existing bDistinct
  have gains : Heap.Gains scope new t.heap (t.heap.bindAll scope b.entries) :=
    ⟨own.next, own.outer, own.others, fun name => by rw [own.own, same]⟩
  refine ⟨_, gains, (eval_requireDecl available visibility).trans done, fun n => ?_⟩
  let u : State := { t with heap := t.heap.bindAll scope b.entries }
  have again : requiredModules loader (eval loader n) filename scope u = .ok ms u :=
    requiredModules_again (u := u) (eval_within loader fuel) available rfl _ scope
  obtain ⟨later, laterOk, still⟩ := exported_again bound exported gains shared
  obtain ⟨c, cDistinct, cSame, cDone⟩ := takes later u laterOk still
  have unchanged : u.heap.bindAll scope c.entries = u.heap := by
    refine Heap.bindAll_of_find? fun entry member => ?_
    have found := Bindings.find?_of_mem cDistinct member
    rw [cSame] at found
    rw [gains.own, found]
    rfl
  refine (eval_requireDecl again visibility).trans (cDone.trans ?_)
  rw [unchanged]

theorem shares_all (available :
      requiredModules loader (eval loader fuel) filename scope s = .ok ms t)
    (bound : ∀ m ∈ ms, m.Bound t.heap) (existing : scope < t.heap.next)
    (exported : Module.exportedByAll ms t.heap = .ok exports) :
    ∃ k, Shares loader (fuel + 1) (.requireDecl filename .all) scope exports s t k := by
  refine shares_of_takes .all available bound existing exported (fun _ _ found => found) ?_
  intro later u exportedLater still
  refine ⟨later, still.distinct, fun name => ?_, shareExports_all exportedLater still.named⟩
  cases found : exports.find? name with
  | some v => exact still.values name v found
  | none =>
    have names := still.names name
    rw [Bindings.binds, Bindings.binds, found] at names
    simpa using names

theorem shares_only (available :
      requiredModules loader (eval loader fuel) filename scope s = .ok ms t)
    (bound : ∀ m ∈ ms, m.Bound t.heap) (existing : scope < t.heap.next)
    (exported : Module.exportedByAll ms t.heap = .ok exports) {names : List String}
    (all : ∀ name ∈ names, exports.binds name = true) :
    ∃ chosen k, (∀ name, chosen.find? name = if name ∈ names then exports.find? name else none) ∧
      Shares loader (fuel + 1) (.requireDecl filename (.only names)) scope chosen s t k := by
  obtain ⟨chosen, -, -, finds⟩ := choose_ok filename all
  refine ⟨chosen, ?_⟩
  have shared : ∀ name v, chosen.find? name = some v → exports.find? name = some v := by
    intro name v found
    rw [finds] at found
    split at found
    · exact found
    · cases found
  obtain ⟨k, shares⟩ := shares_of_takes (.only names) available bound existing
    exported shared fun later u exportedLater still => by
      have listed : ∀ name ∈ names, later.binds name = true := fun name asked =>
        (still.names name).trans (all name asked)
      obtain ⟨b, choice, distinct, laterFinds⟩ := choose_ok filename listed
      refine ⟨b, distinct, fun name => ?_, shareExports_only exportedLater still.named choice⟩
      rw [laterFinds]
      by_cases asked : name ∈ names
      · obtain ⟨v, found⟩ := Option.isSome_iff_exists.mp (all name asked)
        have here : chosen.find? name = some v := by rw [finds, if_pos asked, found]
        rw [if_pos asked, here, still.values name v here]
      · rw [if_neg asked, finds, if_neg asked]
  exact ⟨k, finds, shares⟩

/-- All requires of a file share the same bindings. Let the file's modules be found, in the cache or
because this require has just evaluated the file, and let `t` be the state then, with all exports
bound as they are in sound states. There is one set of exports: every name that a module lists, with
what the last module to list it binds to it now. A plain require binds exactly these in its own
scope, also when that is the scope of one of the modules. `:as` binds its alias alone, to a
namespace of exactly these. `:only` binds exactly the names asked for, however often and in whatever
order, if all of them are there, and otherwise fails for the first one that is not and binds none.
Nothing else changes, save that a namespace takes a stamp; and a plain or `:only` require changes
nothing when it is evaluated at once again. -/
theorem requires_share_exports (available :
      requiredModules loader (eval loader fuel) filename scope s = .ok ms t)
    (bound : ∀ m ∈ ms, m.Bound t.heap) (existing : scope < s.heap.next) :
    ∃ exports : Bindings Value, Module.exportedByAll ms t.heap = .ok exports ∧
      (∀ name, exports.find? name = (ms.reverse.find? fun m => name ∈ m.exports).bind fun m =>
        (t.heap.bindings m.scope).find? name) ∧
      (∃ k, Shares loader (fuel + 1) (.requireDecl filename .all) scope exports s t k) ∧
      (∀ qualifier, qualifier ≠ "" → ∃ k,
        Heap.Gains scope (.ofList [(qualifier, .nameSpace t.fresh qualifier exports)]) t.heap k ∧
        eval loader (fuel + 1) (.requireDecl filename (.qualified qualifier)) scope s =
          .ok .nil { t with heap := k, fresh := t.fresh + 1 }) ∧
      ∀ names,
        ((∀ name ∈ names, exports.binds name = true) → ∃ chosen k,
          (∀ name, chosen.find? name = if name ∈ names then exports.find? name else none) ∧
          Shares loader (fuel + 1) (.requireDecl filename (.only names)) scope chosen s t k) ∧
        ∀ name, names.find? (fun name => !exports.binds name) = some name →
          eval loader (fuel + 1) (.requireDecl filename (.only names)) scope s =
            .error (.eval (.fileNotExporting filename name)) t := by
  have evolves := requiredModules_within (eval_within loader fuel) loader filename scope s t
    (ends_of_ok available)
  have still : scope < t.heap.next := Nat.lt_of_lt_of_le existing evolves.heap_kept.remain
  obtain ⟨exports, exported, -, finds⟩ := Module.exportedByAll_of_bound bound
  refine ⟨exports, exported, finds, shares_all available bound still exported,
    fun qualifier nonempty => ⟨_, Heap.gains_bind still qualifier _, ?_⟩,
    fun names => ⟨shares_only available bound still exported, fun name missing => ?_⟩⟩
  · exact (eval_requireDecl available _).trans (shareExports_qualified exported nonempty)
  · exact (eval_requireDecl available _).trans (shareExports_missing exported missing)

/-- Two modules of one file both export `b`, and the file is required in the scope of the first one:
its own `b` takes the value of the other's. A name that neither exports is refused. -/
theorem requires_share_exports_in_module_scope :
    let l : Loader := .ofTable (.ofList [("f", "")])
    let first : Frame := ⟨.ofList [("a", .string "a"), ("b", .string "b")], [0]⟩
    let second : Frame := ⟨.ofList [("b", .string "B"), ("c", .string "C")], [0]⟩
    let ms : List Module := [⟨"first", 1, ["a", "b"]⟩, ⟨"second", 2, ["b", "c"]⟩]
    let s : State :=
      ⟨⟨#[⟨.empty, []⟩, first, second]⟩, ⟨.empty, .ofList [("f", ms)]⟩, .idle, 0⟩
    requiredModules (some l) (eval (some l) 0) "f" 1 s = .ok ms s ∧
      (∀ m ∈ ms, m.Bound s.heap) ∧ 1 < s.heap.next ∧
      (∃ k, eval (some l) 1 (.requireDecl "f" .all) 1 s = .ok .nil { s with heap := k } ∧
        (k.bindings 1).find? "b" = some (.string "B")) ∧
      eval (some l) 1 (.requireDecl "f" (.only ["c", "c", "d", "e"])) 1 s =
        .error (.eval (.fileNotExporting "f" "d")) s := by
  intro l first second ms s
  have available : requiredModules (some l) (eval (some l) 0) "f" 1 s = .ok ms s := by rfl
  have bound : ∀ m ∈ ms, m.Bound s.heap := by
    change ∀ m ∈ ms, ∀ name ∈ m.exports,
      name ≠ "" ∧ (s.heap.bindings m.scope).binds name = true
    decide +kernel
  have existing : 1 < s.heap.next := by decide
  obtain ⟨exports, -, finds, ⟨k, all⟩, -, only⟩ :=
    requires_share_exports available bound existing
  have last : exports.find? "b" = some (.string "B") := (finds "b").trans rfl
  refine ⟨available, bound, existing, ⟨k, all.done, ?_⟩, (only _).2 "d" ?_⟩
  · rw [all.gains.own, last]
    rfl
  · simp only [List.find?_cons, Bindings.binds, finds]
    rfl

end Shares

end Evaluation

end ModularLisp
