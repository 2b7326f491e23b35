import ModularLisp.Proofs.Reach

/-!
# Loading a file includes its forms

Inside a load the stack of files being loaded is longer, and nothing but the search for circles
depends on it. So a load comes out as its forms do when they are evaluated in its place, value,
error and state alike, unless it finds a circle of loads.
-/

namespace ModularLisp

open List Relator

variable {α : Type} {c : Comparison} {q : Pairing}

namespace Pairing

def identity : Pairing := diagonal (fun _ => True) id

/-- A pairing that is one to one has no room beside the identity. -/
theorem frames_eq (le : identity ≤ q) {i j : FrameId} (paired : q.frames i j) : i = j :=
  q.frames_unique.left paired (le.frames ⟨rfl, trivial⟩)

theorem stamps_eq (le : identity ≤ q) {a b : Stamp} (paired : q.stamps a b) : a = b :=
  q.stamps_unique.left paired (le.stamps ⟨rfl, trivial⟩)

theorem owners_eq (le : identity ≤ q) {f : Builtin} {a b : Stamp} (paired : q.owners f a b) :
    a = b :=
  (q.owners_unique f).left paired (le.owners ⟨rfl, trivial⟩)

theorem modules_eq (le : identity ≤ q) {m n : Module} (paired : q.modules m n) : m = n := by
  obtain ⟨name, exports, scope⟩ := q.modules_alike paired
  cases m
  cases n
  cases name
  cases exports
  cases frames_eq le scope
  rfl

end Pairing

theorem forall₂_eq {R : α → α → Prop} (equal : ∀ {a b}, R a b → a = b) {xs ys : List α}
    (related : Forall₂ R xs ys) : xs = ys := by
  rw [← forall₂_eq_eq_eq]
  exact related.imp fun _ _ => equal

theorem Bindings.Alike.eq {R : α → α → Prop} (equal : ∀ {v w}, R v w → v = w) {b b' : Bindings α}
    (alike : b.Alike R b') : b = b' :=
  congrArg Bindings.mk (forall₂_eq (fun entries => Prod.ext entries.1 (equal entries.2)) alike)

theorem Value.Alike.eq (le : Pairing.identity ≤ q) {v w : Value} (alike : v.Alike q w) :
    v = w := by
  induction alike with
  | list size _ ih =>
    rw [forall₂_eq id (forall₂_iff_zip.mpr ⟨size, fun member => ih _ member⟩)]
  | closure formals body name stamps scopes =>
    rw [Pairing.stamps_eq le stamps, Pairing.frames_eq le scopes]
  | builtin owners => rw [Pairing.owners_eq le owners]
  | nameSpace name stamps names _ ih =>
    rw [Pairing.stamps_eq le stamps, (Bindings.alike_of_names names ih).eq id]
  | _ => rfl

namespace Heap

theorem frame?_eq (h : Heap) (i : FrameId) :
    h.frame? i = if i < h.next then some ⟨h.bindings i, h.outer i⟩ else none := by
  split
  · rename_i old
    have found : h.frame? i = some h.frames[i] := Array.getElem?_eq_getElem old
    rw [bindings, outer, found]
    rfl
  · rename_i beyond
    exact Array.getElem?_eq_none (Nat.le_of_not_lt beyond)

theorem Alike.eq (le : Pairing.identity ≤ q) {h k : Heap} (alike : h.Alike q k) : h = k := by
  have next : h.next = k.next := (alike.inStep.eq_iff (le.frames ⟨rfl, trivial⟩)).mp rfl
  refine congrArg Heap.mk (Array.ext_getElem? fun i => ?_)
  change h.frame? i = k.frame? i
  have paired : q.frames i i := le.frames ⟨rfl, trivial⟩
  rw [frame?_eq, frame?_eq, next, (alike.bindings paired).eq (Value.Alike.eq le),
    forall₂_eq (Pairing.frames_eq le) (alike.outer paired)]

end Heap

namespace State

/-- States that are alike with everything paired with itself differ in the files being loaded
only. -/
theorem Alike.afterLoad_eq (le : Pairing.identity ≤ q) {s t : State} (alike : s.Alike c q t) :
    s.afterLoad t = t := by
  have heap := alike.heap.eq le
  have fresh : s.fresh = t.fresh := (alike.stamps.eq_iff (le.stamps ⟨rfl, trivial⟩)).mp rfl
  have modules := alike.registry.modules.eq (Pairing.modules_eq le)
  have files := alike.registry.files.eq (forall₂_eq (Pairing.modules_eq le))
  have requiring := alike.progress.requiring
  have collectors := forall₂_eq (forall₂_eq (Pairing.modules_eq le)) alike.progress.collectors
  obtain ⟨h, ⟨ms, fs⟩, ⟨rs, ls, cs⟩, n⟩ := s
  obtain ⟨h', ⟨ms', fs'⟩, ⟨rs', ls', cs'⟩, n'⟩ := t
  simp_all [afterLoad]

theorem closed_univ (s : State) : s.Closed fun _ => True :=
  ⟨fun _ _ => trivial, fun _ _ _ => trivial, id, fun _ => trivial⟩

/-- Inside a load the state is the same but for the file being loaded. -/
theorem alike_insideLoad (s : State) (key : String) :
    s.Alike ⟨s.heap.next, s.fresh, True⟩ .identity (s.insideLoad key) :=
  { s.closed_univ.alike True with
    progress := ⟨rfl, s.closed_univ.collectors_alike, Or.inr ⟨trivial, subset_cons_self ..⟩⟩ }

end State

/-- A circle of loads was found. -/
def Result.IsCircularLoad (r : Result α) : Prop :=
  ∃ chain t, r = .error (.eval (.circularLoad chain)) t

namespace Evaluation

open ModularLisp.Action

variable {l : Loader} {filename key : String} {forms : List Expr} {scope : FrameId} {s t : State}

theorem evalLoad_eq {ev : Evaluator} (canonical : l.canonicalName filename = .ok key)
    (served : l.forms filename = .ok forms) : evalLoad (some l) ev filename scope s =
      whileLoading key (evalBody ev scope .nil forms) s := by
  have loaded : theLoader (some l) filename s = .ok l s := rfl
  have read : (fromLoader filename (l.forms filename) >>= evalBody ev scope .nil) =
      evalBody ev scope .nil forms := by
    rw [served]
    rfl
  refine (bind_ok loaded).trans ?_
  refine (bind_ok (fromLoader_ok canonical filename s)).trans ?_
  exact congrArg (whileLoading key · s) read

/-- The state after the load, when its forms end alike inside the load and in its place. -/
theorem afterLoad_of_alike (le : Pairing.identity ≤ q) (alike : s.Alike c q t) {u : State}
    (loading : s.progress.loading = u.progress.loading) : t.afterLoad u = s := by
  have same := alike.afterLoad_eq le
  rw [← same]
  simp only [State.afterLoad, ← loading]

/-- With the same fuel for its forms a load does what they do, or finds a circle. -/
theorem evalLoad_cases (loader : Option Loader) (fuel : Nat)
    (canonical : l.canonicalName filename = .ok key) (served : l.forms filename = .ok forms)
    (scope : FrameId) (s : State) :
    (evalLoad (some l) (eval loader fuel) filename scope s).IsCircularLoad ∨
      evalLoad (some l) (eval loader fuel) filename scope s =
        evalForms loader fuel scope forms s := by
  have opened : evalLoad (some l) (eval loader fuel) filename scope s =
      whileLoading key (evalForms loader fuel scope forms) s := evalLoad_eq canonical served
  rw [opened]
  by_cases circle : key ∈ s.progress.loading
  · exact Or.inl ⟨_, _, whileLoading_circle circle⟩
  · have within := evalForms_within loader fuel scope forms
    have alike := evalForms_alike _ loader fuel (p := .identity) (i := scope) ⟨rfl, trivial⟩ forms s
      _ (s.alike_insideLoad key)
    generalize outside : evalForms loader fuel scope forms s = x at alike ⊢
    generalize inside : evalForms loader fuel scope forms (s.insideLoad key) = y at alike
    cases alike with
    | ok grows states values =>
      have kept := (within _ _ (ends_of_ok outside)).progress_kept
      rw [whileLoading_ok circle within inside, values.eq grows.le,
        afterLoad_of_alike grows.le states kept.loading]
      exact Or.inr rfl
    | error e grows states =>
      have kept := (within _ _ (ends_of_error outside)).progress_kept
      rw [whileLoading_error circle within inside,
        afterLoad_of_alike grows.le states kept.loading]
      exact Or.inr rfl
    | outOfFuel => exact Or.inr (whileLoading_outOfFuel circle inside)
    | circle _ _ chain t' => exact Or.inl ⟨_, _, whileLoading_error circle within inside⟩

/-- Load is inclusion: a load that ends without finding a circle of loads ends as the file's forms
do when they are evaluated in its place; and when these end, the load ends alike or finds a
circle. -/
theorem load_is_inclusion (canonical : l.canonicalName filename = .ok key)
    (served : l.forms filename = .ok forms) (scope : FrameId) (s : State) (r : Result Value)
    (ended : r ≠ .outOfFuel) :
    ((∃ fuel, eval (some l) fuel (.loadDecl filename) scope s = r) → ¬ r.IsCircularLoad →
        ∃ fuel, evalForms (some l) fuel scope forms s = r) ∧
      ((∃ fuel, evalForms (some l) fuel scope forms s = r) →
        ∃ fuel, eval (some l) fuel (.loadDecl filename) scope s = r ∨
          (eval (some l) fuel (.loadDecl filename) scope s).IsCircularLoad) := by
  have cases := fun fuel => evalLoad_cases (some l) fuel canonical served scope s
  constructor
  · rintro ⟨fuel, rfl⟩ level
    cases fuel with
    | zero => exact absurd rfl ended
    | succ fuel => exact ⟨fuel, ((cases fuel).resolve_left level).symm⟩
  · rintro ⟨fuel, rfl⟩
    exact ⟨fuel + 1, (cases fuel).symm⟩

/-- A file that loads itself when it is evaluated for the first time: its forms come to a value in
place, and inside a load they find the circle. -/
theorem load_is_inclusion_of_self_loading_file :
    let forms : List Expr := [.list [.symbol "if", .symbol "done", .symbol "done",
      .list [.symbol "do", .list [.symbol "set", .symbol "done", .boolean true], .loadDecl "f"]]]
    let l : Loader := ⟨.ok, fun _ => .ok forms⟩
    let s : State := ⟨⟨#[⟨⟨[("done", .boolean false)]⟩, []⟩]⟩, .empty, .idle, 0⟩
    let t : State := ⟨⟨#[⟨⟨[("done", .boolean true)]⟩, []⟩]⟩, .empty, .idle, 0⟩
    let r : Result Value := .ok (.boolean true) t
    l.canonicalName "f" = .ok "f" ∧ l.forms "f" = .ok forms ∧ r ≠ .outOfFuel ∧
      evalForms (some l) 6 0 forms s = r ∧
      (eval (some l) 7 (.loadDecl "f") 0 s).IsCircularLoad ∧
      ∃ fuel, eval (some l) fuel (.loadDecl "f") 0 s = r ∨
        (eval (some l) fuel (.loadDecl "f") 0 s).IsCircularLoad := by
  intro forms l s t r
  have evaluated : evalForms (some l) 6 0 forms s = r := by rfl
  have ended : r ≠ .outOfFuel := nofun
  refine ⟨rfl, rfl, ended, evaluated, ⟨["f", "f"], t, by rfl⟩, ?_⟩
  exact (load_is_inclusion (l := l) rfl rfl 0 s r ended).2 ⟨6, evaluated⟩

end Evaluation

end ModularLisp
