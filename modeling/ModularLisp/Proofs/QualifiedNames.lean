import Mathlib.Data.List.TakeDrop
import ModularLisp.Proofs.SharedExports

/-!
# Qualified names

A name is split at its first point. So what stands behind the point may hold points of its own, but
what stands before it may not: a namespace bound to a name without a point gives all of its members,
and one bound to a name with a point gives none.
-/

namespace ModularLisp

namespace Heap

variable {h : Heap} {scope : FrameId} {name qualifier member : String} {v : Value}

/-- Up to a point there are no points. -/
theorem qualifiedName?_append (undotted : '.' ∉ qualifier.toList) (named : qualifier ≠ "")
    (nonempty : member ≠ "") :
    qualifiedName? (qualifier ++ "." ++ member) = some (qualifier, member) := by
  have split : (qualifier ++ "." ++ member).toList.span (· ≠ '.') =
      (qualifier.toList, '.' :: member.toList) := by
    have before : ∀ c ∈ qualifier.toList, decide (c ≠ '.') = true :=
      fun c inside => decide_eq_true fun point => undotted (point ▸ inside)
    have spelled : (qualifier ++ "." ++ member).toList =
        qualifier.toList ++ '.' :: member.toList := by simp
    rw [spelled, List.span_eq_takeWhile_dropWhile, List.takeWhile_append_of_pos before,
      List.dropWhile_append_of_pos before]
    simp
  rw [qualifiedName?, split]
  cases first : qualifier.toList with
  | nil => exact absurd (String.toList_eq_nil_iff.mp first) named
  | cons c rest =>
    cases second : member.toList with
    | nil => exact absurd (String.toList_eq_nil_iff.mp second) nonempty
    | cons d more =>
      change some (String.ofList (c :: rest), String.ofList (d :: more)) = _
      rw [← first, ← second, String.ofList_toList, String.ofList_toList]

theorem lookup_member (undotted : '.' ∉ qualifier.toList) (named : qualifier ≠ "")
    (nonempty : member ≠ "") (plain : h.value? scope (qualifier ++ "." ++ member) = none)
    {stamp : Stamp} {title : String} {members : Bindings Value}
    (bound : h.value? scope qualifier = some (.nameSpace stamp title members))
    (found : members.find? member = some v) :
    h.lookup scope (qualifier ++ "." ++ member) = .ok v := by
  simp only [lookup, plain, qualifiedName?_append undotted named nonempty, bound, found]

/-- Only what is bound before the first point matters. -/
theorem lookup_unbound (undotted : '.' ∉ qualifier.toList) (named : qualifier ≠ "")
    (nonempty : member ≠ "") (plain : h.value? scope (qualifier ++ "." ++ member) = none)
    (unbound : ∀ stamp title members, h.value? scope qualifier ≠
      some (.nameSpace stamp title members)) :
    h.lookup scope (qualifier ++ "." ++ member) =
      .error (.unbound (qualifier ++ "." ++ member)) := by
  simp only [lookup, plain, qualifiedName?_append undotted named nonempty]

theorem value?_bind_self (existing : scope < h.next) (name : String) (v : Value) :
    (h.bind scope name v).value? scope name = some v := by
  rw [value?, chain, List.findSome?_cons, bindings_bind_self existing, Bindings.find?_insert,
    if_pos rfl]

end Heap

namespace Evaluation

open ModularLisp.Action

variable {loader : Option Loader} {fuel : Nat} {scope : FrameId} {s t : State} {v : Value}
  {qualifier : String}

theorem eval_symbol (loader : Option Loader) (fuel : Nat) {name : String}
    (found : s.heap.lookup scope name = .ok v) :
    eval loader (fuel + 1) (.symbol name) scope s = .ok v s := by
  simp only [eval, step, Action.lookup, found]

/-- What a module form leaves behind: a registered module, and in its own scope a namespace that
holds what the exports are bound to. -/
structure Declares (name : String) (exports : List String) (scope inner : FrameId) (t : State) :
    Prop where
  registered : t.registry.modules.find? name = some ⟨name, inner, exports⟩
  bound : ∃ stamp members, (t.heap.bindings scope).find? name =
    some (.nameSpace stamp name members) ∧
    ∀ x ∈ exports, ∃ v, (t.heap.bindings inner).find? x = some v ∧ members.find? x = some v

theorem declares_of_ok {name : String} {exports : List String} {body : List Expr}
    (named : ∀ x ∈ exports, x ≠ "") (existing : scope < s.heap.next)
    (done : eval loader fuel (.moduleDecl name exports body) scope s = .ok v t) :
    Declares name exports scope s.heap.next t := by
  cases fuel with
  | zero => cases done
  | succ fuel =>
    have bodied : evalModule (eval loader fuel) name exports body scope s = .ok v t := done
    cases evalModule_cases bodied with
    | @intro _ u members evaluated defined exported nonempty =>
      have evolves := evalBody_within (eval_within loader fuel) _ .nil body _ _
        (ends_of_ok evaluated)
      have still : scope < u.heap.next := by
        have remain := evolves.heap_kept.remain
        rw [Heap.next_push] at remain
        exact Nat.lt_of_lt_of_le (Nat.lt_succ_of_lt existing) remain
      have bound : ∀ m ∈ [(⟨name, s.heap.next, exports⟩ : Module)], m.Bound u.heap := by
        intro m member x listed
        rw [List.mem_singleton.mp member] at listed ⊢
        exact ⟨named x listed, defined x listed⟩
      obtain ⟨b, ok, -, finds⟩ := Module.exportedByAll_of_bound bound
      cases exported.symm.trans ok
      refine ⟨?_, u.fresh, members, ?_, fun x listed => ?_⟩
      · exact (Bindings.find?_insert _ _ _ _).trans (if_pos rfl)
      · exact (congrArg (·.find? name) (Heap.bindings_bind_self still _ _)).trans
          ((Bindings.find?_insert _ _ _ _).trans (if_pos rfl))
      · obtain ⟨w, found⟩ := Option.isSome_iff_exists.mp (defined x listed)
        refine ⟨w, ?_, (finds x).trans (by simp [listed, found])⟩
        rw [← found]
        exact congrArg (·.find? x) (Heap.bindings_bind_of_ne (Nat.ne_of_lt existing) _ _)

theorem alias_ne_empty {filename : String} {ms : List Module} {exports : Bindings Value}
    (exported : Module.exportedByAll ms s.heap = .ok exports)
    (done : shareExports filename (.qualified qualifier) ms scope s = .ok v t) :
    qualifier ≠ "" := by
  rintro rfl
  rw [shareExports_eq exported] at done
  cases done

/-- A namespace bound to a name without a point gives its members under that name, a point and
theirs, points or not: right after a module form what the exports are bound to in the module's
scope, right after a require with an alias what its file exports. What is bound to a name with a
point in it is not reached so: only what stands before the first point is looked up. -/
theorem undotted_qualifier_reaches_exports (existing : scope < s.heap.next)
    (undotted : '.' ∉ qualifier.toList) :
    (∀ exports body v t, (∀ x ∈ exports, x ≠ "") →
      eval loader fuel (.moduleDecl qualifier exports body) scope s = .ok v t →
      ∃ m, t.registry.modules.find? qualifier = some m ∧ m.exports = exports ∧ ∀ x ∈ exports,
        t.heap.value? scope (qualifier ++ "." ++ x) = none →
        ∃ w, (t.heap.bindings m.scope).find? x = some w ∧
          ∀ n, eval loader (n + 1) (.symbol (qualifier ++ "." ++ x)) scope t = .ok w t) ∧
    (∀ filename ms t v u, requiredModules loader (eval loader fuel) filename scope s = .ok ms t →
      (∀ m ∈ ms, m.Bound t.heap) →
      eval loader (fuel + 1) (.requireDecl filename (.qualified qualifier)) scope s = .ok v u →
      ∃ exports, Module.exportedByAll ms t.heap = .ok exports ∧ ∀ x w, exports.find? x = some w →
        u.heap.value? scope (qualifier ++ "." ++ x) = none →
        ∀ n, eval loader (n + 1) (.symbol (qualifier ++ "." ++ x)) scope u = .ok w u) ∧
    ∀ rest x u, qualifier ≠ "" →
      u.heap.value? scope (qualifier ++ "." ++ (rest ++ "." ++ x)) = none →
      (∀ stamp title members, u.heap.value? scope qualifier ≠
        some (.nameSpace stamp title members)) →
      ∀ n, eval loader (n + 1) (.symbol (qualifier ++ "." ++ (rest ++ "." ++ x))) scope u =
        .error (.eval (.unbound (qualifier ++ "." ++ (rest ++ "." ++ x)))) u := by
  refine ⟨?_, ?_, ?_⟩
  · intro exports body v t named done
    obtain ⟨registered, stamp, members, bound, holds⟩ := declares_of_ok named existing done
    refine ⟨_, registered, rfl, fun x listed plain => ?_⟩
    obtain ⟨w, found, member⟩ := holds x listed
    have seen : t.heap.value? scope qualifier = some (.nameSpace stamp qualifier members) := by
      rw [Heap.value?, Heap.chain, List.findSome?_cons, bound]
    have nonempty : qualifier ≠ "" := by
      rintro rfl
      cases fuel with
      | zero => cases done
      | succ fuel =>
        have bodied : evalModule (eval loader fuel) "" exports body scope s = .ok v t := done
        cases evalModule_cases bodied with
        | intro _ _ _ nonempty => exact nonempty rfl
    exact ⟨w, found, fun n => eval_symbol loader n
      (Heap.lookup_member undotted nonempty (named x listed) plain seen member)⟩
  · intro filename ms t v u available bound done
    obtain ⟨exports, exported, -⟩ := Module.exportedByAll_of_bound bound
    have shared := (eval_requireDecl available _).symm.trans done
    have nonempty := alias_ne_empty exported shared
    cases (shareExports_qualified exported nonempty).symm.trans shared
    have evolves := requiredModules_within (eval_within loader fuel) loader filename scope s t
      (ends_of_ok available)
    have still : scope < t.heap.next := Nat.lt_of_lt_of_le existing evolves.heap_kept.remain
    refine ⟨exports, exported, fun x w found plain n => eval_symbol loader n ?_⟩
    have named : x ≠ "" := by
      rintro rfl
      cases (Module.exported_named bound exported).symm.trans found
    exact Heap.lookup_member undotted nonempty named plain (Heap.value?_bind_self still _ _) found
  · intro rest x u nonempty plain unbound n
    have behind : rest ++ "." ++ x ≠ "" := by
      intro empty
      have spelled := congrArg String.toList empty
      simp at spelled
    have failed := Heap.lookup_unbound undotted nonempty behind plain unbound
    simp only [eval, step, Action.lookup, failed]

/-- An export with a point in its name. -/
theorem undotted_qualifier_reaches_dotted_export :
    let body : List Expr := [.list [.symbol "define", .symbol "x.y", .boolean true]]
    let members : Bindings Value := .ofList [("x.y", .boolean true)]
    let t : State := ⟨⟨#[⟨.ofList [("m", .nameSpace 0 "m" members)], []⟩, ⟨members, [0]⟩]⟩,
      ⟨.ofList [("m", ⟨"m", 1, ["x.y"]⟩)], .empty⟩, .idle, 1⟩
    '.' ∉ "m".toList ∧ eval none 3 (.moduleDecl "m" ["x.y"] body) 0 .withRoot = .ok .nil t ∧
      t.heap.value? 0 "m.x.y" = none ∧
      eval none 1 (.symbol "m.x.y") 0 t = .ok (.boolean true) t := by
  intro body members t
  have undotted : '.' ∉ "m".toList := by decide
  have done : eval none 3 (.moduleDecl "m" ["x.y"] body) 0 .withRoot = .ok .nil t := by rfl
  have plain : t.heap.value? 0 "m.x.y" = none := by rfl
  have reached := (undotted_qualifier_reaches_exports (by decide) undotted).1 ["x.y"] body .nil t
    (by decide) done
  obtain ⟨m, registered, -, reaches⟩ := reached
  cases registered
  obtain ⟨w, found, evaluated⟩ := reaches "x.y" List.mem_cons_self plain
  cases found
  exact ⟨undotted, done, plain, evaluated 0⟩

end Evaluation

/-- A module whose name has a point in it is evaluated and registered, and its export is bound in
its scope, but is not found under the module's name. -/
theorem Session.dotted_module_unreachable :
    let after := (start false 1).eval none 4 0 "(module a.b (export x) (define x true))"
    let r := after.2.eval none 4 0 "a.b.x"
    after.1.errorKind? = none ∧
      (after.2.registries[0]?.bind fun r => r.modules.find? "a.b") = some ⟨"a.b", 1, ["x"]⟩ ∧
      ((after.2.heap.bindings 1).find? "x").map (·.display) = some "true" ∧
      ((after.2.heap.bindings 0).find? "a.b").map (·.kind) = some "namespace" ∧
      (after.2.heap.bindings 0).binds "a.b.x" = false ∧
      r.1.errorKind? = some .unboundSymbol := by
  decide +kernel

end ModularLisp
