import ModularLisp.Loader.Directory
import ModularLisp.Proofs.Safety

/-!
# No fault is ever reached

With loaders that keep to their protocol an evaluation gives a value or fails with an error that is
no fault, in every reachable session: the checks made while reading, while registering and before
each operation keep every partial operation within its domain. The number of digits of an integer
literal is checked by nobody before it is converted, so it has to be limited in all texts.
-/

namespace ModularLisp

/-- A require that has been read has one modifier at most. -/
theorem Declaration.requireOf_built {arguments : List Expr} {e : Expr}
    (read : requireOf arguments = .ok e) : ∃ filename qualifier chosen visibility,
      Visibility.ofModifiers qualifier chosen = .ok visibility ∧
        e = .requireDecl filename visibility := by
  have built : ∀ filename (visibility : Visibility), ∃ name qualifier chosen found,
      Visibility.ofModifiers qualifier chosen = .ok found ∧
        Expr.requireDecl filename visibility = .requireDecl name found := by
    intro filename visibility
    cases visibility with
    | all => exact ⟨filename, none, none, .all, rfl, rfl⟩
    | qualified qualifier => exact ⟨filename, some qualifier, none, _, rfl, rfl⟩
    | only chosen => exact ⟨filename, none, some chosen, _, rfl, rfl⟩
  simp only [requireOf] at read
  split at read
  · cases read
  · split at read
    · cases read
      exact built _ _
    · obtain ⟨visibility, -, rfl⟩ := map_eq_ok read
      exact built _ visibility
    · cases read
  · cases read

theorem Token.ofSource_isNumberText {source : String} {tokens : List Token}
    (lexed : ofSource source = .ok tokens) {t : Token} (member : t ∈ tokens)
    (number : t.kind = .number) : isNumberText t.text = true := by
  have literal := (ofSource_proper lexed t member).number number
  obtain ⟨l, read⟩ := Option.isSome_iff_exists.mp literal
  simp only [isNumberText, NumberText.read?, read, Option.isSome_some]

/-- Any symbols, and integer literals that can be converted. -/
def Vocabulary.convertible : Vocabulary := ⟨fun _ => True, False⟩

theorem DigitLimited.readFrom {source : String} (limited : DigitLimited source)
    {forms : List Expr} (read : Expr.readAll source = .ok forms) :
    ∀ e ∈ forms, e.ReadFrom .convertible := by
  obtain ⟨tokens, lexed, -⟩ := except_bind_eq_ok read
  exact Expr.readAll_readFrom trivial (mapError_eq_ok lexed) (fun _ _ _ => trivial) (.inl limited)
    read

namespace Loader

/-- A loader that keeps to its protocol and may serve whatever reading gives, as long as the
integer literals can be converted. -/
abbrev Sincere (l : Loader) : Prop := l.Serves .convertible

theorem ofTable_sincere {sources : Bindings String}
    (limited : ∀ filename text, sources.find? filename = some text → DigitLimited text) :
    (ofTable sources).Sincere :=
  ofTable_serves fun filename text found _ read => (limited filename text found).readFrom read

/-- Failures of the host are within the protocol. -/
theorem failing_sincere {l : Loader} (sincere : l.Sincere) (lookingFor reading : Bindings String) :
    (failing lookingFor reading l).Sincere where
  locating := by
    intro filename e failed
    simp only [failing] at failed
    split at failed
    · cases failed
    · exact sincere.locating filename e failed
  reading := by
    intro filename e failed
    simp only [failing] at failed
    split at failed
    · cases failed
    · exact sincere.reading filename e failed
  forms := by
    intro filename forms served
    simp only [failing] at served
    split at served
    · cases served
    · exact sincere.forms filename forms served

theorem firstFile_ne_error (t : SourceTree) (paths : List Path) (e : Error) :
    t.firstFile paths ≠ .error (.error e) := by
  induction paths with
  | nil => exact nofun
  | cons p rest ih =>
    rw [SourceTree.firstFile]
    split
    · exact nofun
    · exact ih
    · split
      · exact nofun
      · exact ih

theorem resolve_kind {t : SourceTree} {filename : String} {e : Error}
    (failed : t.resolve filename = .error (.error e)) : e.kind = .loader := by
  simp only [SourceTree.resolve] at failed
  split at failed
  · rename_i failure found
    cases failed
    exact absurd found (firstFile_ne_error t _ e)
  · cases failed
  · cases failed
    rfl

theorem decode_kind {filename : String} {octets : List UInt8} {e : Error}
    (failed : SourceTree.decode filename octets = .error (.error e)) : e.kind = .loader := by
  simp only [SourceTree.decode] at failed
  split at failed
  · cases failed
  · cases failed
    rfl

theorem ofTree_sincere {t : SourceTree} (limited : ∀ filename place source,
      t.resolve filename = .ok place → SourceTree.decode filename place.2 = .ok source →
      DigitLimited source) : (ofTree t).Sincere where
  locating := by
    intro filename e failed
    rcases except_bind_eq_error failed with unresolved | ⟨place, -, resolved⟩
    · rw [resolve_kind unresolved]
      exact nofun
    · cases resolved
  reading := by
    intro filename e failed
    rcases except_bind_eq_error failed with unresolved | ⟨place, -, resolved⟩
    · rw [resolve_kind unresolved]
      exact nofun
    · rcases except_bind_eq_error resolved with malformed | ⟨source, -, unread⟩
      · rw [decode_kind malformed]
        exact nofun
      · obtain ⟨reason, same⟩ := formsOf_error unread
        cases same
        exact ReadError.kind_ne_fault reason
  forms := by
    intro filename forms served
    obtain ⟨place, found, rest⟩ := except_bind_eq_ok served
    obtain ⟨source, decoded, read⟩ := except_bind_eq_ok rest
    exact (limited filename place source found decoded).readFrom (formsOf_ok read)

end Loader

/-- Any symbols and any lack of fuel. -/
def Contract.lax (requiring loading : List String) : Contract :=
  ⟨.convertible, requiring, loading, True⟩

namespace Evaluation

variable {loader : Option Loader}

theorem eval_meets_lax (sincere : ∀ l, loader = some l → l.Sincere) (fuel : Nat)
    (requiring loading : List String) {e : Expr} (readable : e.ReadFrom .convertible) :
    Evaluates (.lax requiring loading) (eval loader fuel) e := by
  -- The files in progress change on the way down, so the statement is about any of them.
  induction fuel generalizing requiring loading e with
  | zero => exact fun _ _ _ => trivial
  | succ fuel ih =>
    have within := eval_within loader fuel
    refine step_meets sincere ⟨within, ?inside, ?bodies, ?required, ?loaded⟩ readable
    case inside => exact fun part _ => ih requiring loading
    case bodies => exact fun c made part member => ih requiring loading (made.body part member)
    case required =>
      rintro l key filename forms given - - served part member
      have proper := (sincere l given).forms filename forms served part member
      exact ih (key :: requiring) loading proper
    case loaded =>
      rintro l key filename forms given - - served part member
      have proper := (sincere l given).forms filename forms served part member
      exact ih requiring (key :: loading) proper

end Evaluation

namespace Session

variable {s : Session}

theorem eval_meets_lax (reachable : s.Reachable) (made : s.heap.MadeFrom .convertible)
    {loader : Option Loader} (sincere : ∀ l, loader = some l → l.Sincere) (fuel index : Nat)
    {source : String} (limited : DigitLimited source) :
    (s.eval loader fuel index source).1.Meets (.lax [] []) ∧
      (s.eval loader fuel index source).2.heap.MadeFrom .convertible := by
  refine eval_meets (k := .lax [] []) (reachable.ready made rfl rfl) made ?_ index
  refine evalSource_meets fun forms read e member => ?_
  exact Evaluation.eval_meets_lax sincere fuel [] [] (limited.readFrom read e member)

theorem ReachableBy.made (reached : s.ReachableBy Loader.Sincere DigitLimited) :
    s.heap.MadeFrom .convertible := by
  induction reached with
  | refl => exact made_empty _
  | tail before step ih =>
    cases step with
    | addRegistry => exact ih
    | addInterpreter registry => exact made_addInterpreter ih registry
    | eval sincere fuel index limited =>
      exact (eval_meets_lax (ReachableBy.reachable before) ih sincere fuel index limited).2

/-- In every reachable session, with loaders that keep to their protocol and as long as all integer
literals can be converted, the evaluation of a text that comes to an end gives a value or fails with
an error that is no fault. A number token is always a number text, and a require is always built
without conflicting modifiers. -/
theorem eval_never_faults (s : Session) (reached : s.ReachableBy Loader.Sincere DigitLimited)
    (loader : Option Loader) (sincere : ∀ l, loader = some l → l.Sincere) (fuel index : Nat)
    (source : String) (limited : DigitLimited source) :
    ((s.eval loader fuel index source).1 = .outOfFuel ∨
      (∃ v, (s.eval loader fuel index source).1 = .value v) ∨
      ∃ e, (s.eval loader fuel index source).1 = .error e ∧ e.kind ≠ .fault) ∧
    (∀ tokens, Token.ofSource source = .ok tokens → ∀ t ∈ tokens, t.kind = .number →
      isNumberText t.text = true) ∧
    ∀ arguments e, Declaration.requireOf arguments = .ok e →
      ∃ filename qualifier chosen visibility,
        Visibility.ofModifiers qualifier chosen = .ok visibility ∧
          e = .requireDecl filename visibility := by
  refine ⟨?_, fun tokens lexed t => Token.ofSource_isNumberText lexed,
    fun arguments e => Declaration.requireOf_built⟩
  have meets := (eval_meets_lax reached.reachable reached.made sincere fuel index limited).1
  generalize (s.eval loader fuel index source).1 = outcome at meets ⊢
  cases outcome with
  | value v => exact Or.inr (Or.inl ⟨v, rfl⟩)
  | error e =>
    have proper : e.kind ≠ .fault := meets.resolve_right fun overlong => overlong.1
    exact Or.inr (Or.inr ⟨e, rfl, proper⟩)
  | outOfFuel => exact Or.inl rfl

/-- The host has failed and an exact integer is divided by zero: both end as errors of the language
do. -/
theorem eval_never_faults_after_host_failure :
    let l : Loader := .failing (.ofList [("a", "busy")]) .empty (.ofTable .empty)
    let s : Session := ((start false 1).eval (some l) 4 0
      "(define f (lambda (x) (/ 1000000000000000 x))) (load \"a\")").2
    let outcome := (s.eval (some l) 5 0 "(f 0)").1
    s.ReachableBy Loader.Sincere DigitLimited ∧ l.Sincere ∧ DigitLimited "(f 0)" ∧
      outcome.errorKind? = some .evaluation ∧
      (outcome = .outOfFuel ∨ (∃ v, outcome = .value v) ∨
        ∃ e, outcome = .error e ∧ e.kind ≠ .fault) := by
  intro l s outcome
  have sincere : l.Sincere :=
    Loader.failing_sincere (Loader.ofTable_sincere fun _ _ found => by cases found) _ _
  have given : ∀ l', some l = some l' → l'.Sincere := fun l' same => Option.some.inj same ▸ sincere
  have reached : s.ReachableBy Loader.Sincere DigitLimited :=
    (reachableBy_start _ _ false 1).tail (.eval given 4 0 (by decide +kernel))
  have limited : DigitLimited "(f 0)" := by decide +kernel
  exact ⟨reached, sincere, limited, by decide +kernel,
    (eval_never_faults s reached (some l) given 5 0 "(f 0)" limited).1⟩

end Session

end ModularLisp
