import ModularLisp.Proofs.Reading
import ModularLisp.Proofs.Requires
import ModularLisp.Proofs.Search

/-!
# Libraries of modules

In a library every file requires some of the others and then declares one module of literals.
Requiring a file searches the graph of the requires depth first: the files being required are the
nodes being visited, the cached files the finished ones. So a require succeeds if and only if it
meets no cycle, and then it evaluates every file that it reaches once.
-/

namespace ModularLisp

/-- An atom that denotes a constant: a kept integer has no more digits than can be converted. -/
inductive Expr.IsLiteral : Expr → Prop
  | number (x : Binary64) : IsLiteral (.number x)
  | bigNumber {text : String} (digits : IntegerText.digitCount text ≤ IntegerText.maxDigits) :
    IsLiteral (.bigNumber text)
  | string (text : String) : IsLiteral (.string text)
  | boolean (b : Bool) : IsLiteral (.boolean b)
  | keyword (name : String) : IsLiteral (.keyword name)

/-- Files required without modifiers, then one module that exports what it defines as literals. -/
structure SourceFile where
  requires : List String
  title : String
  exports : List String
  definitions : List (String × Expr)
  literal : ∀ d ∈ definitions, d.2.IsLiteral
  defined : ∀ x ∈ exports, x ∈ definitions.map (·.1)

namespace SourceFile

def requireForm (name : String) : Expr := .requireDecl name .all

def defineForm (d : String × Expr) : Expr := .list [.symbol "define", .symbol d.1, d.2]

def moduleForm (f : SourceFile) : Expr :=
  .moduleDecl f.title f.exports (f.definitions.map defineForm)

def forms (f : SourceFile) : List Expr := f.requires.map requireForm ++ [f.moduleForm]

end SourceFile

/-- A table of source texts, each of such a file, that require only one another. -/
structure Library where
  sources : Bindings String
  file : String → SourceFile
  reads : ∀ {name text}, sources.find? name = some text →
    Expr.readAll text = .ok (file name).forms
  closed : ∀ name ∈ sources.names, ∀ d ∈ (file name).requires, d ∈ sources.names

def Expr.isDeclaration : Expr → Bool
  | .moduleDecl .. | .importDecl _ | .requireDecl .. | .loadDecl _ => true
  | _ => false

theorem Expr.IsLiteral.not_declaration {e : Expr} (literal : e.IsLiteral) :
    e.isDeclaration = false := by
  cases literal <;> rfl

/-- The innermost file being required when a call begins. -/
def Call.file? (c : Call) : Option String := c.state.progress.requiring.head?

/-- The declarations that are evaluated, in order, while the innermost file being required is the
given one, or while no file is. -/
def declarationsIn (file : Option String) (calls : List Call) : List Expr :=
  (calls.filter fun c => c.file? = file && c.expr.isDeclaration).map (·.expr)

theorem declarationsIn_append (file : Option String) (cs ds : List Call) :
    declarationsIn file (cs ++ ds) = declarationsIn file cs ++ declarationsIn file ds := by
  rw [declarationsIn, List.filter_append, List.map_append]
  rfl

theorem declarationsIn_of_none {calls : List Call}
    (none : ∀ c ∈ calls, c.expr.isDeclaration = false) (file : Option String) :
    declarationsIn file calls = [] := by
  have empty : calls.filter (fun c => c.file? = file && c.expr.isDeclaration) = [] :=
    List.filter_eq_nil_iff.mpr fun c member => by simp [none c member]
  rw [declarationsIn, empty]
  rfl

theorem declarationsIn_cons {c : Call} (declaration : c.expr.isDeclaration = true)
    (calls : List Call) (file : Option String) : declarationsIn file (c :: calls) =
      (if file = c.file? then [c.expr] else []) ++ declarationsIn file calls := by
  by_cases own : file = c.file?
  · simp [declarationsIn, own, declaration]
  · simp [declarationsIn, own, Ne.symm own]

namespace Evaluation

open ModularLisp.Action

variable (loader : Option Loader) (scope : FrameId)

theorem eval_literal {e : Expr} (literal : e.IsLiteral) (readable : e.Readable) (fuel : Nat)
    (s : State) : ∃ v, eval loader (fuel + 1) e scope s = .ok v s := by
  cases literal with
  | bigNumber digits =>
    cases readable with
    | @bigNumber _ n denotes =>
      refine ⟨.bigNumber n, ?_⟩
      simp only [eval, step, integerOf_eq_ok_iff.mpr ⟨denotes, digits⟩]
      rfl
  | number | string | boolean | keyword => exact ⟨_, rfl⟩

theorem eval_defineForm {d : String × Expr} (literal : d.2.IsLiteral)
    (readable : (SourceFile.defineForm d).Readable) (fuel : Nat) (s : State) :
    ∃ v, eval loader (fuel + 2) (SourceFile.defineForm d) scope s =
      .ok .nil { s with heap := s.heap.bind scope d.1 v } := by
  cases readable with
  | list parts =>
    have valueReadable : d.2.Readable := parts d.2 (by simp)
    have nonempty : d.1 ≠ "" :=
      (parts (.symbol d.1) (by simp)).symbolName?_named rfl
    obtain ⟨v, evaluated⟩ := eval_literal loader scope literal valueReadable fuel s
    have named : (Label.text d.1).name? = some d.1 := if_neg nonempty
    refine ⟨v, ?_⟩
    change evalDefine (eval loader (fuel + 1)) scope [.symbol d.1, d.2] s = _
    simp only [evalDefine, Expr.symbolName?]
    rw [bind_ok evaluated]
    simp only [define, named]
    rfl

theorem evalBody_defineForms {ds : List (String × Expr)} (literal : ∀ d ∈ ds, d.2.IsLiteral)
    (readable : ∀ d ∈ ds, (SourceFile.defineForm d).Readable) (fuel : Nat) (s : State) :
    ∃ entries : List (String × Value), entries.map (·.1) = ds.map (·.1) ∧
      evalBody (eval loader (fuel + 2)) scope .nil (ds.map SourceFile.defineForm) s =
        .ok .nil { s with heap := s.heap.bindAll scope entries } := by
  induction ds generalizing s with
  | nil => exact ⟨[], rfl, rfl⟩
  | cons d rest ih =>
    obtain ⟨first, later⟩ := List.forall_mem_cons.mp literal
    obtain ⟨firstReadable, laterReadable⟩ := List.forall_mem_cons.mp readable
    obtain ⟨v, evaluated⟩ := eval_defineForm loader scope first firstReadable fuel s
    obtain ⟨entries, names, body⟩ := ih later laterReadable
      { s with heap := s.heap.bind scope d.1 v }
    refine ⟨(d.1, v) :: entries, by simp [names], ?_⟩
    rw [List.map_cons, evalBody, bind_ok evaluated]
    exact body

theorem trace_literal {e : Expr} (literal : e.IsLiteral) (fuel : Nat) (s : State) :
    trace loader fuel ⟨e, scope, s⟩ = [⟨e, scope, s⟩] := by
  cases fuel with
  | zero => rfl
  | succ fuel => cases literal <;> rfl

/-- Inside a definition of a literal nothing is declared. -/
theorem trace_defineForm {d : String × Expr} (literal : d.2.IsLiteral) (fuel : Nat) (s : State) :
    ∀ c ∈ trace loader fuel ⟨SourceFile.defineForm d, scope, s⟩, c.expr.isDeclaration = false := by
  cases fuel with
  | zero => exact List.forall_mem_cons.mpr ⟨rfl, nofun⟩
  | succ fuel =>
    have inside : trace loader (fuel + 1) ⟨SourceFile.defineForm d, scope, s⟩ =
        ⟨SourceFile.defineForm d, scope, s⟩ ::
          [(⟨d.2, scope, s⟩ : Call)].flatMap (trace loader fuel) := rfl
    rw [inside, List.flatMap_singleton, trace_literal loader scope literal]
    exact List.forall_mem_cons.mpr ⟨rfl, List.forall_mem_cons.mpr ⟨literal.not_declaration, nofun⟩⟩

theorem eval_moduleForm {f : SourceFile} (readable : f.moduleForm.Readable) (fuel : Nat)
    (s : State) : ∃ u, eval loader (fuel + 3) f.moduleForm scope s = .ok .nil u ∧
      u.registry.files = s.registry.files ∧
      u.progress = s.progress.collect ⟨f.title, s.heap.next, f.exports⟩ := by
  cases readable with
  | moduleDecl nonempty exported parts =>
    have readable : ∀ d ∈ f.definitions, (SourceFile.defineForm d).Readable := fun d member =>
      parts _ (List.mem_map_of_mem member)
    obtain ⟨entries, names, evaluated⟩ := evalBody_defineForms loader s.heap.next f.literal readable
      fuel { s with heap := s.heap.push (s.heap.innerFrame scope) }
    have bound : Module.Bound ⟨f.title, s.heap.next, f.exports⟩
        ((s.heap.push (s.heap.innerFrame scope)).bindAll s.heap.next entries) := by
      intro x listed
      have old : s.heap.next < (s.heap.push (s.heap.innerFrame scope)).next := by
        rw [Heap.next_push]
        exact Nat.lt_succ_self _
      refine ⟨exported x listed, ?_⟩
      rw [Heap.bindings_bindAll old, Bindings.binds_insertAll, names]
      exact Or.inl (f.defined x listed)
    obtain ⟨u, ok, registry, progress⟩ := evalModule_ok nonempty evaluated bound
    exact ⟨u, ok, by rw [registry]; rfl, progress⟩

theorem declarationsIn_moduleForm (f : SourceFile) (fuel : Nat) (s : State)
    (file : Option String) : declarationsIn file (trace loader fuel ⟨f.moduleForm, scope, s⟩) =
      if file = s.progress.requiring.head? then [f.moduleForm] else [] := by
  have whole : ∃ inside, trace loader fuel ⟨f.moduleForm, scope, s⟩ =
      ⟨f.moduleForm, scope, s⟩ :: inside ∧ ∀ c ∈ inside, c.expr.isDeclaration = false := by
    cases fuel with
    | zero => exact ⟨[], rfl, nofun⟩
    | succ fuel =>
      refine ⟨_, rfl, fun c member => ?_⟩
      obtain ⟨⟨e, inner, t⟩, called, member⟩ := List.mem_flatMap.mp member
      obtain ⟨d, listed, rfl⟩ := List.mem_map.mp (expr_mem_of_mem_sequenceCalls called)
      exact trace_defineForm loader inner (f.literal d listed) fuel t c member
  obtain ⟨inside, split, quiet⟩ := whole
  rw [split, declarationsIn_cons rfl, declarationsIn_of_none quiet, List.append_nil]
  rfl

end Evaluation

/-- A state in the middle of a search: some files are being required and some are cached. -/
structure State.Searching (stack done : List String) (s : State) : Prop where
  sound : s.Sound
  requiring : s.progress.requiring = stack
  files : s.registry.files.names = done

namespace Library

open Evaluation

variable (g : Library)

def requires (name : String) : List String := (g.file name).requires

def loader : Loader := .ofTable g.sources

variable {g} {name : String}

theorem exists_source (known : name ∈ g.sources.names) :
    ∃ text, g.sources.find? name = some text :=
  Option.isSome_iff_exists.mp (Bindings.binds_iff.mpr known)

theorem canonicalName_eq (known : name ∈ g.sources.names) :
    g.loader.canonicalName name = .ok name := by
  obtain ⟨text, found⟩ := exists_source known
  simp only [loader, Loader.ofTable, found]

theorem forms_eq (known : name ∈ g.sources.names) :
    g.loader.forms name = .ok (g.file name).forms := by
  obtain ⟨text, found⟩ := exists_source known
  simp only [loader, Loader.ofTable, found, Loader.formsOf, g.reads found]
  rfl

theorem moduleForm_readable (known : name ∈ g.sources.names) :
    (g.file name).moduleForm.Readable := by
  obtain ⟨text, found⟩ := exists_source known
  refine Expr.readAll_readable (g.reads found) _ ?_
  exact List.mem_append_right _ List.mem_cons_self

variable {stack done : List String} {s : State} {scope : FrameId}

theorem find?_eq_none_of_not_mem (searching : s.Searching stack done) (unfinished : name ∉ done) :
    s.registry.files.find? name = none := by
  rw [← searching.files, ← Bindings.binds_iff] at unfinished
  simpa [Bindings.binds] using unfinished

theorem not_mem_requiring (searching : s.Searching stack done) (unopened : name ∉ stack) :
    name ∉ s.progress.requiring := by
  rwa [searching.requiring]

theorem searching_openFile (searching : s.Searching stack done) (unopened : name ∉ stack)
    (scope : FrameId) : (s.openFile name scope).Searching (name :: stack) done where
  sound := searching.sound.openFile (not_mem_requiring searching unopened) scope
  requiring := congrArg (name :: ·) searching.requiring
  files := searching.files

end Library

end ModularLisp
