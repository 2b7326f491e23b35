import ModularLisp.Proofs.Nesting
import ModularLisp.Proofs.Safety

/-!
# Inclusion of files terminates

Without the symbol `lambda` there are no functions to call, so evaluation only ever goes down a tree
or into a file. A source can be in progress twice at most, once as required and once as loaded. So
the room that is left for files, and for equal room the size of the tree, bounds the evaluation.
-/

namespace ModularLisp

/-- No token of the text is the symbol `lambda`. -/
def LambdaFree (source : String) : Prop :=
  ∀ tokens ∈ (Token.ofSource source).toOption, (⟨.symbol, "lambda"⟩ : Token) ∉ tokens

instance (source : String) : Decidable (LambdaFree source) :=
  inferInstanceAs (Decidable (∀ tokens ∈ (Token.ofSource source).toOption, _ ∉ tokens))

/-- Any symbols but that one. -/
def Vocabulary.functionFree (overlong : Prop) : Vocabulary := ⟨(· ≠ "lambda"), overlong⟩

variable {overlong : Prop}

theorem LambdaFree.readFrom {source : String} (free : LambdaFree source)
    (limited : DigitLimited source ∨ overlong) {forms : List Expr}
    (read : Expr.readAll source = .ok forms) :
    ∀ e ∈ forms, e.ReadFrom (.functionFree overlong) := by
  obtain ⟨tokens, found, -⟩ := except_bind_eq_ok read
  have lexed := mapError_eq_ok found
  have absent : (⟨.symbol, "lambda"⟩ : Token) ∉ tokens := free tokens (by rw [lexed]; rfl)
  have mark : "quote" ≠ "lambda" := by decide
  refine Expr.readAll_readFrom mark lexed ?_ limited read
  rintro ⟨kind, text⟩ member rfl rfl
  exact absent member

theorem Loader.ofTable_lambdaFree {sources : Bindings String}
    (free : ∀ filename source, sources.find? filename = some source → LambdaFree source)
    (limited : (∀ filename source, sources.find? filename = some source → DigitLimited source) ∨
      overlong) : (ofTable sources).Serves (.functionFree overlong) :=
  ofTable_serves fun filename source found _ read =>
    (free filename source found).readFrom (limited.imp_left fun all => all filename source found)
      read

namespace Contract

variable {names : List String} {k : Contract} {key : String}

/-- How many more files may come into progress, when there are files of these names only. -/
def room (names : List String) (k : Contract) : Nat :=
  (names.length - k.requiring.length) + (names.length - k.loading.length)

/-- The files in progress have these names, and none is required twice or loaded twice. -/
structure Fits (names : List String) (k : Contract) : Prop where
  requiring : k.requiring.Nodup
  loading : k.loading.Nodup
  required : ∀ key ∈ k.requiring, key ∈ names
  loaded : ∀ key ∈ k.loading, key ∈ names

/-- Where a file is not in progress yet, not all files are. -/
theorem length_lt_of_unopened {opened : List String} (distinct : opened.Nodup)
    (within : ∀ x ∈ opened, x ∈ names) (known : key ∈ names) (unopened : key ∉ opened) :
    opened.length < names.length :=
  Search.length_le_of_nodup (List.nodup_cons.mpr ⟨unopened, distinct⟩)
    (List.forall_mem_cons.mpr ⟨known, within⟩)

theorem Fits.require (fits : k.Fits names) (known : key ∈ names) (unopened : key ∉ k.requiring) :
    (k.require key).Fits names ∧ (k.require key).room names < k.room names := by
  have left := length_lt_of_unopened fits.requiring fits.required known unopened
  refine ⟨⟨List.nodup_cons.mpr ⟨unopened, fits.requiring⟩, fits.loading,
    List.forall_mem_cons.mpr ⟨known, fits.required⟩, fits.loaded⟩, ?_⟩
  simp only [room, Contract.require, List.length_cons]
  omega

theorem Fits.load (fits : k.Fits names) (known : key ∈ names) (unopened : key ∉ k.loading) :
    (k.load key).Fits names ∧ (k.load key).room names < k.room names := by
  have left := length_lt_of_unopened fits.loading fits.loaded known unopened
  refine ⟨⟨fits.requiring, List.nodup_cons.mpr ⟨unopened, fits.loading⟩, fits.required,
    List.forall_mem_cons.mpr ⟨known, fits.loaded⟩⟩, ?_⟩
  simp only [room, Contract.load, List.length_cons]
  omega

/-- What may still be done: a tree of some size, and further files whose trees have at most
`size`. -/
def remaining (names : List String) (size : Nat) (k : Contract) (tree : Nat) : Nat :=
  k.room names * (size + 1) + tree

/-- A tree in a further file leaves less to be done than any tree before. -/
theorem remaining_lt {size tree part : Nat} {later : Contract}
    (less : later.room names < k.room names) (small : part ≤ size) :
    later.remaining names size part < k.remaining names size tree := by
  have whole : (later.room names + 1) * (size + 1) ≤ k.room names * (size + 1) :=
    Nat.mul_le_mul_right _ less
  rw [Nat.succ_mul] at whole
  simp only [remaining]
  omega

/-- No functions, nothing in progress and no lack of fuel. -/
def functionFree (overlong : Prop) : Contract := ⟨.functionFree overlong, [], [], False⟩

theorem Fits.functionFree : (functionFree overlong).Fits names where
  requiring := List.nodup_nil
  loading := List.nodup_nil
  required := nofun
  loaded := nofun

end Contract

namespace Evaluation

/-- Fuel for what remains to be done is enough, with whatever cycles among the files. -/
theorem eval_meets_free {sources : Bindings String} {size : Nat}
    (bounded : ∀ filename forms, (Loader.ofTable sources).forms filename = .ok forms →
      ∀ e ∈ forms, sizeOf e ≤ size) {k : Contract} (free : ¬ k.words.symbol "lambda")
    (serves : (Loader.ofTable sources).Serves k.words) (fits : k.Fits sources.names) {fuel : Nat}
    {e : Expr} (enough : k.remaining sources.names size (sizeOf e) < fuel)
    (readable : e.ReadFrom k.words) :
    Evaluates k (eval (some (.ofTable sources)) fuel) e := by
  -- A call for a part keeps the contract and shrinks the tree; a call for a form of a file begins
  -- that file, and the room left for files falls whatever the size of the form.
  induction fuel generalizing k e with
  | zero => cases enough
  | succ fuel ih =>
    have given : ∀ l, some (Loader.ofTable sources) = some l → l.Serves k.words := fun l same =>
      Option.some.inj same ▸ serves
    refine step_meets given ⟨eval_within _ fuel, ?inside, ?bodies, ?required, ?loaded⟩ readable
    case inside =>
      intro part smaller
      refine ih free serves fits ?_
      simp only [Contract.remaining] at enough ⊢
      omega
    -- No function has been made, so no body is ever called.
    case bodies => exact fun c made => absurd made.lambda free
    case required =>
      rintro l key filename forms same canonical unopened served part member
      cases same
      obtain ⟨later, less⟩ := fits.require (Loader.mem_names_of_canonical canonical) unopened
      have proper := serves.forms filename forms served part member
      refine ih (k := k.require key) free serves later ?_ proper
      have small := bounded filename forms served part member
      exact (Contract.remaining_lt less small).trans_le (Nat.le_of_lt_succ enough)
    case loaded =>
      rintro l key filename forms same canonical unopened served part member
      cases same
      obtain ⟨later, less⟩ := fits.load (Loader.mem_names_of_canonical canonical) unopened
      have proper := serves.forms filename forms served part member
      refine ih (k := k.load key) free serves later ?_ proper
      have small := bounded filename forms served part member
      exact (Contract.remaining_lt less small).trans_le (Nat.le_of_lt_succ enough)

end Evaluation

namespace Loader

/-- The trees of finitely many texts have bounded size. -/
theorem exists_size (entries : List (String × String)) : ∃ size, ∀ entry ∈ entries,
    ∀ forms, Expr.readAll entry.2 = .ok forms → ∀ e ∈ forms, sizeOf e ≤ size := by
  induction entries with
  | nil => exact ⟨0, nofun⟩
  | cons entry rest ih =>
    obtain ⟨size, bounded⟩ := ih
    cases read : Expr.readAll entry.2 with
    | error e =>
      refine ⟨size, List.forall_mem_cons.mpr ⟨fun forms again => ?_, bounded⟩⟩
      cases read.symm.trans again
    | ok own =>
      refine ⟨sizeOf own + size, List.forall_mem_cons.mpr ⟨fun forms again e member => ?_, ?_⟩⟩
      · cases read.symm.trans again
        have smaller := List.sizeOf_lt_of_mem member
        omega
      · intro other member forms again e part
        have smaller := bounded other member forms again e part
        omega

end Loader

namespace Session

theorem made_start (words : Vocabulary) (shared : Bool) (count : Nat) :
    (start shared count).heap.MadeFrom words := by
  induction count with
  | zero => cases shared <;> exact made_empty words
  | succ count ih =>
    cases shared with
    | false =>
      have registered : (start false count).addRegistry.heap.MadeFrom words := ih
      exact made_addInterpreter registered count
    | true => exact made_addInterpreter ih 0

/-- With enough fuel the evaluation keeps a contract that allows no lack of fuel, and that admits
literals with too many digits unless all texts are limited. -/
theorem eval_meets_functionFree (sources : Bindings String)
    (sources_free : ∀ filename text, sources.find? filename = some text → LambdaFree text)
    (source : String) (free : LambdaFree source) (shared : Bool) (count index : Nat) :
    ∃ enough, ∀ fuel, enough ≤ fuel → ∀ overlong : Prop, DigitLimited source ∨ overlong →
      (∀ filename text, sources.find? filename = some text → DigitLimited text) ∨ overlong →
      ((start shared count).eval (some (.ofTable sources)) fuel index source).1.Meets
        (.functionFree overlong) := by
  obtain ⟨size, bounded⟩ := Loader.exists_size (("", source) :: sources.entries)
  obtain ⟨own, others⟩ := List.forall_mem_cons.mp bounded
  let most := (Contract.functionFree True).remaining sources.names size size
  refine ⟨most + 1, fun fuel enough overlong limited sources_limited => ?_⟩
  let k : Contract := .functionFree overlong
  have unnamed : ¬ k.words.symbol "lambda" := fun other => other rfl
  have serves : (Loader.ofTable sources).Serves k.words :=
    Loader.ofTable_lambdaFree sources_free sources_limited
  have small : ∀ filename forms, (Loader.ofTable sources).forms filename = .ok forms →
      ∀ e ∈ forms, sizeOf e ≤ size := by
    intro filename forms served
    obtain ⟨text, found, read⟩ := Loader.forms_ofTable served
    exact Bindings.All.find? (P := fun text => ∀ forms, Expr.readAll text = .ok forms →
      ∀ e ∈ forms, sizeOf e ≤ size) others found forms read
  have parts : ∀ forms, Expr.readAll source = .ok forms → ∀ e ∈ forms,
      Evaluation.Evaluates k (Evaluation.eval (some (.ofTable sources)) fuel) e := by
    intro forms read e member
    have readable := free.readFrom limited read e member
    refine Evaluation.eval_meets_free small unnamed serves .functionFree ?_ readable
    have tree := own forms read e member
    change k.remaining sources.names size size + 1 ≤ fuel at enough
    simp only [Contract.remaining] at enough ⊢
    omega
  have ready := (reachable_start shared count).ready (made_start k.words shared count) rfl rfl
  exact (eval_meets ready (made_start k.words shared count) (evalSource_meets parts) index).1

/-- If the symbol `lambda` occurs neither in the text nor in any source of the table, a fresh
interpreter comes to the end of the text, with a value or with an error, whatever files load and
require each other. The error is no fault, but for a literal that has too many digits to be
converted; and there is none if all the texts are limited. -/
theorem inclusion_terminates (sources : Bindings String)
    (sources_free : ∀ filename text, sources.find? filename = some text → LambdaFree text)
    (source : String) (free : LambdaFree source) (shared : Bool) (count index : Nat) :
    ∃ enough, ∀ fuel, enough ≤ fuel →
      (∃ v, ((start shared count).eval (some (.ofTable sources)) fuel index source).1 = .value v) ∨
      ∃ e, ((start shared count).eval (some (.ofTable sources)) fuel index source).1 = .error e ∧
        (e.kind ≠ .fault ∨ e.IsDigitLimit) ∧
        (DigitLimited source →
          (∀ filename text, sources.find? filename = some text → DigitLimited text) →
          e.kind ≠ .fault) := by
  obtain ⟨enough, meets⟩ :=
    eval_meets_functionFree sources sources_free source free shared count index
  refine ⟨enough, fun fuel much => ?_⟩
  have lenient := meets fuel much True (.inr trivial) (.inr trivial)
  have strict := fun limited sources_limited =>
    meets fuel much False (.inl limited) (.inl sources_limited)
  generalize ((start shared count).eval _ fuel index source).1 = outcome at lenient strict ⊢
  cases outcome with
  | value v => exact Or.inl ⟨v, rfl⟩
  | error e =>
    refine Or.inr ⟨e, rfl, lenient.imp_right And.right, fun limited sources_limited => ?_⟩
    exact (strict limited sources_limited).resolve_right fun overlong => overlong.1
  | outOfFuel => cases lenient

/-- Two files that load and require each other in turn: the circle is found. -/
theorem inclusion_terminates_in_circle :
    let sources : Bindings String := .ofList
      [("a", "(require \"b\")"), ("b", "(load \"a\") (module m (export x) (define x true))")]
    (∀ filename text, sources.find? filename = some text → LambdaFree text) ∧
      (∀ filename text, sources.find? filename = some text → DigitLimited text) ∧
      LambdaFree "(load \"a\")" ∧ DigitLimited "(load \"a\")" ∧
      ((start false 1).eval (some (.ofTable sources)) 5 0 "(load \"a\")").1.errorKind? =
        some .circularLoad ∧
      ∃ enough, ∀ fuel, enough ≤ fuel →
        (∃ v, ((start false 1).eval (some (.ofTable sources)) fuel 0 "(load \"a\")").1 =
          .value v) ∨
        ∃ e, ((start false 1).eval (some (.ofTable sources)) fuel 0 "(load \"a\")").1 = .error e ∧
          e.kind ≠ .fault := by
  intro sources
  have entries : sources.All fun text => LambdaFree text ∧ DigitLimited text := by
    have each : ∀ entry ∈ sources.entries, LambdaFree entry.2 ∧ DigitLimited entry.2 := by
      decide +kernel
    exact each
  have sources_free : ∀ filename text, sources.find? filename = some text → LambdaFree text :=
    fun _ _ found => (entries.find? found).1
  have sources_limited : ∀ filename text, sources.find? filename = some text →
      DigitLimited text := fun _ _ found => (entries.find? found).2
  have free : LambdaFree "(load \"a\")" := by decide +kernel
  have limited : DigitLimited "(load \"a\")" := by decide +kernel
  refine ⟨sources_free, sources_limited, free, limited, by decide +kernel, ?_⟩
  obtain ⟨enough, ends⟩ := inclusion_terminates sources sources_free _ free false 1 0
  refine ⟨enough, fun fuel much => (ends fuel much).imp_right ?_⟩
  rintro ⟨e, failed, -, proper⟩
  exact ⟨e, failed, proper limited sources_limited⟩

end Session

end ModularLisp
