import ModularLisp.Proofs.Tokens

/-!
# The grammar of expressions

Which token lists derive which expressions, with no cursor and no stack:

    expr ::= number | string | boolean | symbol | keyword | ( expr* ) | [ expr* ] | ' expr

A parenthesised list headed by the name of a declaration derives that declaration if its elements
have the declaration's shape, and nothing otherwise. Parsing succeeds exactly on derivations: what
has been read, what is still open and what was delivered always add up to the tokens taken so far.
-/

namespace ModularLisp

/-! ## Declarations -/

/-- `(module name (export symbol ...) form ...)`, by what follows the head. -/
inductive ModuleShape : List Expr → Expr → Prop
  | intro (name : String) (exports : List String) (form : Expr) (forms : List Expr) :
    ModuleShape
      (.symbol name :: .list (.symbol "export" :: exports.map .symbol) :: form :: forms)
      (.moduleDecl name exports (form :: forms))

/-- `(import name)` -/
inductive ImportShape : List Expr → Expr → Prop
  | intro (name : String) : ImportShape [.symbol name] (.importDecl name)

/-- `(load "file")` -/
inductive LoadShape : List Expr → Expr → Prop
  | intro (filename : String) : LoadShape [.string filename] (.loadDecl filename)

/-- `(require "file")`, `(require "file" :as alias)` and `(require "file" :only (symbol ...))`,
where the symbols may also stand in brackets. -/
inductive RequireShape : List Expr → Expr → Prop
  | all (filename : String) : RequireShape [.string filename] (.requireDecl filename .all)
  | qualified (filename qualifier : String) :
    RequireShape [.string filename, .keyword "as", .symbol qualifier]
      (.requireDecl filename (.qualified qualifier))
  | only (filename : String) {payload : Expr} {names : List String}
    (sequence : payload.elements? = some (names.map .symbol)) :
    RequireShape [.string filename, .keyword "only", payload] (.requireDecl filename (.only names))

/-- What a parenthesised sequence denotes: the declaration that its head announces, or a list. -/
inductive Denotes : List Expr → Expr → Prop
  | moduleDecl {es : List Expr} {e : Expr} (shape : ModuleShape es e) :
    Denotes (.symbol "module" :: es) e
  | importDecl {es : List Expr} {e : Expr} (shape : ImportShape es e) :
    Denotes (.symbol "import" :: es) e
  | loadDecl {es : List Expr} {e : Expr} (shape : LoadShape es e) :
    Denotes (.symbol "load" :: es) e
  | requireDecl {es : List Expr} {e : Expr} (shape : RequireShape es e) :
    Denotes (.symbol "require" :: es) e
  | list {es : List Expr} (plain : ∀ head ∈ ["module", "import", "load", "require"],
      es.head? ≠ some (.symbol head)) : Denotes es (.list es)

namespace Declaration

variable {es : List Expr} {e : Expr}

theorem symbolNames_eq_ok_iff {fault : MalformedForm} {names : List String} :
    symbolNames fault es = .ok names ↔ es = names.map .symbol := by
  induction es generalizing names with
  | nil => cases names <;> simp [symbolNames]
  | cons e rest ih =>
    simp only [symbolNames]
    cases e with
    | symbol name =>
      constructor
      · intro h
        obtain ⟨later, found, rfl⟩ := map_eq_ok h
        rw [List.map_cons, ← ih.mp found]
      · intro h
        cases names with
        | nil => cases h
        | cons first later =>
          cases h
          simp only [Expr.symbolName?, ih.mpr rfl]
          rfl
    | _ => cases names <;> simp [Expr.symbolName?]

theorem symbolNames_symbols (fault : MalformedForm) (names : List String) :
    symbolNames fault (names.map .symbol) = .ok names :=
  symbolNames_eq_ok_iff.mpr rfl

theorem exportNames_eq_ok_iff {exports : List String} :
    exportNames e = .ok exports ↔ e = .list (.symbol "export" :: exports.map .symbol) := by
  cases e with
  | list es =>
    cases es with
    | nil => simp [exportNames]
    | cons head names =>
      simp only [exportNames]
      split
      · rename_i headed
        cases head with
        | symbol name =>
          cases headed
          simp [symbolNames_eq_ok_iff]
        | _ => cases headed
      · rename_i other
        constructor
        · intro h
          cases h
        · intro h
          cases h
          exact absurd rfl other
  | _ => simp [exportNames]

theorem moduleOf_eq_ok_iff : moduleOf es = .ok e ↔ ModuleShape es e := by
  constructor
  · intro h
    match es with
    | name :: exports :: form :: forms =>
      cases name with
      | symbol name =>
        obtain ⟨names, found, rfl⟩ := map_eq_ok h
        rw [exportNames_eq_ok_iff.mp found]
        exact .intro name names form forms
      | _ => cases h
    | [] | [_] | [_, _] => cases h
  · rintro ⟨name, exports, form, forms⟩
    simp only [moduleOf, Expr.symbolName?, exportNames_eq_ok_iff.mpr rfl]
    rfl

theorem importOf_eq_ok_iff : importOf es = .ok e ↔ ImportShape es e := by
  constructor
  · intro h
    rw [importOf.eq_def] at h
    split at h
    · cases h
      exact .intro _
    · cases h
    · cases h
  · rintro ⟨name⟩
    rfl

theorem loadOf_eq_ok_iff : loadOf es = .ok e ↔ LoadShape es e := by
  constructor
  · intro h
    rw [loadOf.eq_def] at h
    split at h
    · cases h
      exact .intro _
    · cases h
    · cases h
  · rintro ⟨filename⟩
    rfl

theorem visibilityOf_shape {modifier payload : Expr} {visibility : Visibility}
    (h : visibilityOf modifier payload = .ok visibility) (filename : String) :
    RequireShape [.string filename, modifier, payload] (.requireDecl filename visibility) := by
  rw [visibilityOf.eq_def] at h
  split at h
  · rename_i name
    split at h
    · rename_i qualified
      subst qualified
      cases payload with
      | symbol qualifier =>
        cases h
        exact .qualified filename qualifier
      | _ => cases h
    · split at h
      · rename_i only
        subst only
        split at h
        · rename_i es sequence
          obtain ⟨names, found, rfl⟩ := map_eq_ok h
          rw [symbolNames_eq_ok_iff.mp found] at sequence
          exact .only filename sequence
        · cases h
      · cases h
  · cases h

theorem requireOf_eq_ok_iff : requireOf es = .ok e ↔ RequireShape es e := by
  constructor
  · intro h
    rw [requireOf.eq_def] at h
    split at h
    · cases h
    · rename_i filename modifiers
      split at h
      · cases h
        exact .all filename
      · obtain ⟨visibility, found, rfl⟩ := map_eq_ok h
        exact visibilityOf_shape found filename
      · cases h
    · cases h
  · intro h
    cases h with
    | all | qualified => rfl
    | only filename sequence =>
      simp only [requireOf, visibilityOf, sequence, symbolNames_symbols]
      rfl

theorem ofElements_eq_ok_iff : ofElements es = .ok e ↔ Denotes es e := by
  constructor
  · intro h
    rw [ofElements.eq_def] at h
    split at h
    · rename_i head arguments
      simp only [reader?] at h
      split_ifs at h with isModule isImport isLoad isRequire
      · subst isModule
        exact .moduleDecl (moduleOf_eq_ok_iff.mp h)
      · subst isImport
        exact .importDecl (importOf_eq_ok_iff.mp h)
      · subst isLoad
        exact .loadDecl (loadOf_eq_ok_iff.mp h)
      · subst isRequire
        exact .requireDecl (requireOf_eq_ok_iff.mp h)
      · cases h
        exact .list (by simp [isModule, isImport, isLoad, isRequire])
    · rename_i headless
      cases h
      refine .list fun head _ headed => ?_
      obtain ⟨arguments, rfl⟩ := List.head?_eq_some_iff.mp headed
      exact headless head arguments rfl
  · intro h
    cases h with
    | moduleDecl shape => exact moduleOf_eq_ok_iff.mpr shape
    | importDecl shape => exact importOf_eq_ok_iff.mpr shape
    | loadDecl shape => exact loadOf_eq_ok_iff.mpr shape
    | requireDecl shape => exact requireOf_eq_ok_iff.mpr shape
    | list plain =>
      rw [ofElements.eq_def]
      split
      · rename_i head arguments
        have other : reader? head = none := by
          simp only [List.head?_cons, ne_eq, Option.some.injEq, Expr.symbol.injEq] at plain
          simp only [reader?]
          split_ifs with isModule isImport isLoad isRequire
          · exact absurd isModule (plain "module" (by simp))
          · exact absurd isImport (plain "import" (by simp))
          · exact absurd isLoad (plain "load" (by simp))
          · exact absurd isRequire (plain "require" (by simp))
          · rfl
        rw [other]
      · rfl

end Declaration

/-! ## Expressions -/

/-- The expression of a number token whose text is a number that does not overflow. -/
inductive NumberShape (text : String) : Expr → Prop
  | real {l : NumberLiteral} (read : NumberText.read? text = some (.decimal l))
    (finite : l.value.isInfinite = false) (short : isLongIntegerText text = false) :
    NumberShape text (.number l.value)
  | integer {l : NumberLiteral} (read : NumberText.read? text = some (.decimal l))
    (finite : l.value.isInfinite = false) (long : isLongIntegerText text = true) :
    NumberShape text (.bigNumber text)
  | infinity {negative : Bool} (read : NumberText.read? text = some (.infinity negative)) :
    NumberShape text (.number (.infinity negative))
  | nan (read : NumberText.read? text = some .nan) : NumberShape text (.number .nan)

/-- The expressions of one token. -/
inductive Atom : Token → Expr → Prop
  | number {text : String} {e : Expr} (shape : NumberShape text e) : Atom ⟨.number, text⟩ e
  | string (text : String) : Atom ⟨.string, text⟩ (.string text)
  | yes : Atom ⟨.boolean, "true"⟩ (.boolean true)
  | no : Atom ⟨.boolean, "false"⟩ (.boolean false)
  | symbol (name : String) : Atom ⟨.symbol, name⟩ (.symbol name)
  | keyword (name : String) : Atom ⟨.keyword, name⟩ (.keyword name)

mutual

/-- The tokens are one expression. -/
inductive Derives : List Token → Expr → Prop
  | atom {t : Token} {e : Expr} (atom : Atom t e) : Derives [t] e
  | parenthesis {ts : List Token} {es : List Expr} {e : Expr} (opening closing : String)
    (inside : DerivesAll ts es) (denotes : Denotes es e) :
    Derives (⟨.openParen, opening⟩ :: ts ++ [⟨.closeParen, closing⟩]) e
  | bracket {ts : List Token} {es : List Expr} (opening closing : String)
    (inside : DerivesAll ts es) :
    Derives (⟨.openBracket, opening⟩ :: ts ++ [⟨.closeBracket, closing⟩]) (.bracket es)
  | quote {ts : List Token} {e : Expr} (mark : String) (quoted : Derives ts e) :
    Derives (⟨.quote, mark⟩ :: ts) (.list [.symbol "quote", e])

/-- The tokens are expressions one after the other. -/
inductive DerivesAll : List Token → List Expr → Prop
  | nil : DerivesAll [] []
  | cons {ts us : List Token} {e : Expr} {es : List Expr} (first : Derives ts e)
    (rest : DerivesAll us es) : DerivesAll (ts ++ us) (e :: es)

end

theorem DerivesAll.eq_nil {ts : List Token} (derived : DerivesAll ts []) : ts = [] := by
  cases derived
  rfl

theorem DerivesAll.single {ts : List Token} {e : Expr} (derived : DerivesAll ts [e]) :
    Derives ts e := by
  cases derived with
  | cons first rest =>
    rw [rest.eq_nil, List.append_nil]
    exact first

theorem Derives.alone {ts : List Token} {e : Expr} (derived : Derives ts e) :
    DerivesAll ts [e] := by
  have single := DerivesAll.cons derived .nil
  rwa [List.append_nil] at single

theorem DerivesAll.snoc {ts us : List Token} {es : List Expr} {e : Expr} :
    DerivesAll ts es → Derives us e → DerivesAll (ts ++ us) (es ++ [e])
  | .nil, last => last.alone
  | .cons first rest, last => by
    rw [List.append_assoc]
    exact .cons first (rest.snoc last)

namespace Parser

theorem numberOf_eq_ok_iff {text : String} {e : Expr} :
    numberOf text = .ok e ↔ NumberShape text e := by
  constructor
  · intro h
    rw [numberOf.eq_def] at h
    split at h
    · cases h
    · rename_i l read
      dsimp only at h
      split_ifs at h with infinite long
      · cases h
        exact .integer read (by simpa using infinite) long
      · cases h
        exact .real read (by simpa using infinite) (by simpa using long)
    · rename_i special unnamed read
      cases h
      cases special with
      | decimal l => exact absurd rfl (unnamed l)
      | infinity negative => exact .infinity read
      | nan => exact .nan read
  · intro h
    cases h with
    | real read finite short => simp [numberOf, read, finite, short]
    | integer read finite long => simp [numberOf, read, finite, long]
    | infinity read | nan read =>
      simp only [numberOf, read]
      rfl

/-- One token is taken as a whole expression exactly if it is one. -/
theorem step_atom {t : Token} {e : Expr} (atom : Atom t e) (s : State) :
    step s t = .ok (s.accept e) := by
  cases atom with
  | number shape =>
    simp only [step, numberOf_eq_ok_iff.mpr shape]
    rfl
  | string | yes | no | symbol | keyword => rfl

/-! ## Completeness -/

/-- Expressions delivered one after the other. -/
def State.acceptAll (s : State) (es : List Expr) : State := es.foldl State.accept s

theorem acceptAll_sequence (enclosure : Enclosure) (reversed : List Expr) (levels : List Level)
    (forms es : List Expr) :
    State.acceptAll ⟨.sequence enclosure reversed :: levels, forms⟩ es =
      ⟨.sequence enclosure (es.reverse ++ reversed) :: levels, forms⟩ := by
  induction es generalizing reversed with
  | nil => rfl
  | cons e rest ih =>
    refine (ih (e :: reversed)).trans ?_
    rw [List.reverse_cons, List.append_assoc, List.singleton_append]

theorem acceptAll_forms (forms es : List Expr) :
    State.acceptAll ⟨[], forms⟩ es = ⟨[], es.reverse ++ forms⟩ := by
  induction es generalizing forms with
  | nil => rfl
  | cons e rest ih =>
    refine (ih (e :: forms)).trans ?_
    rw [List.reverse_cons, List.append_assoc, List.singleton_append]

/-- A way of taking tokens that works in steps wherever it is willing; it is willing wherever
something is open. -/
structure Takes (f : State → Token → Except ReadError State) (willing : State → Prop) : Prop where
  step : ∀ s t, willing s → f s t = Parser.step s t
  inside : ∀ s, s.levels ≠ [] → willing s

namespace Takes

variable {f : State → Token → Except ReadError State} {willing : State → Prop}

theorem inside_sequence (takes : Takes f willing) (s : State) (enclosure : Enclosure)
    (es : List Expr) : willing ((s.nest (.sequence enclosure [])).acceptAll es) := by
  rw [State.nest, acceptAll_sequence]
  exact takes.inside _ (List.cons_ne_nil _ _)

/-- What is enclosed is delivered as one expression when its sequence closes. -/
theorem enclosed (takes : Takes f willing) {enclosure : Enclosure} {opening closing : Token}
    (opens : ∀ s, Parser.step s opening = .ok (s.nest (.sequence enclosure [])))
    (closes : ∀ s, Parser.step s closing = s.close enclosure) {ts : List Token} {es : List Expr}
    {e : Expr} {s : State} (ready : willing s)
    (taken : ts.foldlM f (s.nest (.sequence enclosure [])) =
      .ok ((s.nest (.sequence enclosure [])).acceptAll es))
    (denotes : sequenceOf enclosure es = .ok e) :
    (opening :: ts ++ [closing]).foldlM f s = .ok (s.accept e) := by
  have ready' := takes.inside_sequence s enclosure es
  rw [List.cons_append, List.foldlM_cons, takes.step s opening ready, opens]
  change (ts ++ [closing]).foldlM f (s.nest (.sequence enclosure [])) = _
  rw [List.foldlM_append, taken]
  change [closing].foldlM f ((s.nest (.sequence enclosure [])).acceptAll es) = _
  rw [List.foldlM_cons, takes.step _ closing ready', closes, State.nest, acceptAll_sequence]
  simp only [State.close, if_true, List.append_nil, List.reverse_reverse, denotes]
  rfl

mutual

theorem derivation (takes : Takes f willing) {ts : List Token} {e : Expr} : Derives ts e →
    ∀ s, willing s → ts.foldlM f s = .ok (s.accept e)
  | .atom atom, s, ready => by
    rw [List.foldlM_cons, takes.step s _ ready, step_atom atom]
    rfl
  | .parenthesis opening closing inside denotes, s, ready => by
    have taken := takes.derivations inside _ (takes.inside_sequence s .parenthesis)
    refine takes.enclosed (fun _ => rfl) (fun _ => rfl) ready taken ?_
    rw [sequenceOf, Declaration.ofElements_eq_ok_iff.mpr denotes]
    rfl
  | .bracket opening closing inside, s, ready =>
    have taken := takes.derivations inside _ (takes.inside_sequence s .bracket)
    takes.enclosed (fun _ => rfl) (fun _ => rfl) ready taken rfl
  | .quote mark quoted, s, ready => by
    have later := takes.derivation quoted (s.nest .quote) (takes.inside _ (List.cons_ne_nil _ _))
    rw [List.foldlM_cons, takes.step s _ ready]
    exact later

theorem derivations (takes : Takes f willing) {ts : List Token} {es : List Expr} :
    DerivesAll ts es → ∀ s, (∀ es, willing (s.acceptAll es)) →
      ts.foldlM f s = .ok (s.acceptAll es)
  | .nil, _, _ => rfl
  | .cons (e := e) first rest, s, ready => by
    have now := takes.derivation first s (ready [])
    have later := takes.derivations rest (s.accept e) fun es => ready (e :: es)
    rw [List.foldlM_append, now]
    exact later

end

end Takes

/-- The plain step takes tokens everywhere. -/
theorem takes_step : Takes step fun _ => True where
  step := fun _ _ _ => rfl
  inside := fun _ _ => trivial

/-- The step for one expression refuses tokens only behind a finished form. -/
theorem takes_stepOnce : Takes stepOnce fun s => s.levels ≠ [] ∨ s.forms = [] where
  step := by
    rintro ⟨levels, forms⟩ t (open_level | unfinished)
    · cases levels with
      | nil => exact absurd rfl open_level
      | cons => rfl
    · cases forms with
      | nil => cases levels <;> rfl
      | cons => cases unfinished
  inside := fun _ => Or.inl

/-! ## Soundness -/

def opening : Enclosure → TokenKind
  | .parenthesis => .openParen
  | .bracket => .openBracket

def closing : Enclosure → TokenKind
  | .parenthesis => .closeParen
  | .bracket => .closeBracket

/-- How the tokens taken so far add up to a state: those of the finished forms, then for each open
level its own token and what has been read inside it. -/
inductive Taken : List Token → State → Prop
  | forms {ts : List Token} {forms : List Expr} (derived : DerivesAll ts forms.reverse) :
    Taken ts ⟨[], forms⟩
  | sequence {ts us : List Token} {levels : List Level} {forms reversed : List Expr}
    (enclosure : Enclosure) (text : String) (outer : Taken ts ⟨levels, forms⟩)
    (inside : DerivesAll us reversed.reverse) :
    Taken (ts ++ ⟨opening enclosure, text⟩ :: us) ⟨.sequence enclosure reversed :: levels, forms⟩
  | quote {ts : List Token} {levels : List Level} {forms : List Expr} (mark : String)
    (outer : Taken ts ⟨levels, forms⟩) :
    Taken (ts ++ [⟨.quote, mark⟩]) ⟨.quote :: levels, forms⟩

theorem booleanOf_atom {text : String} {e : Expr} (h : booleanOf text = .ok e) :
    Atom ⟨.boolean, text⟩ e := by
  simp only [booleanOf] at h
  split_ifs at h with yes no
  · cases h
    rw [yes]
    exact .yes
  · cases h
    rw [no]
    exact .no

/-- An enclosed sequence is an expression if closing it makes one. -/
theorem derives_enclosed {enclosure : Enclosure} {ts : List Token} {es : List Expr} {e : Expr}
    (inside : DerivesAll ts es) (denotes : sequenceOf enclosure es = .ok e) (text last : String) :
    Derives (⟨opening enclosure, text⟩ :: ts ++ [⟨closing enclosure, last⟩]) e := by
  cases enclosure with
  | parenthesis =>
    refine .parenthesis text last inside ?_
    exact Declaration.ofElements_eq_ok_iff.mp (mapError_eq_ok denotes)
  | bracket =>
    cases denotes
    exact .bracket text last inside

namespace Taken

variable {ts us : List Token} {s s' : State} {e : Expr}

/-- The tokens of a complete expression go where the expression goes. -/
theorem accept (taken : Taken ts s) (derives : Derives us e) : Taken (ts ++ us) (s.accept e) := by
  -- Along the open levels: a quote on top takes the expression into a longer derivation.
  induction taken generalizing us e with
  | forms derived =>
    refine .forms ?_
    rw [List.reverse_cons]
    exact derived.snoc derives
  | sequence enclosure text outer inside =>
    rw [List.append_assoc, List.cons_append]
    refine .sequence enclosure text outer ?_
    rw [List.reverse_cons]
    exact inside.snoc derives
  | quote mark outer ih =>
    rw [List.append_assoc, List.singleton_append]
    exact ih (.quote mark derives)

theorem close {enclosure : Enclosure} (taken : Taken ts s) (closed : s.close enclosure = .ok s')
    (last : String) : Taken (ts ++ [⟨closing enclosure, last⟩]) s' := by
  cases taken with
  | forms | quote => cases closed
  | sequence opened text outer inside =>
    simp only [State.close] at closed
    split_ifs at closed with same
    · subst same
      obtain ⟨e, denotes, rfl⟩ := map_eq_ok closed
      rw [List.append_assoc]
      exact outer.accept (derives_enclosed inside denotes text last)

theorem step {t : Token} (taken : Taken ts s) (inner : t.kind ≠ .endOfInput)
    (stepped : Parser.step s t = .ok s') : Taken (ts ++ [t]) s' := by
  obtain ⟨kind, text⟩ := t
  cases kind with
  | number =>
    obtain ⟨e, read, rfl⟩ := map_eq_ok stepped
    exact taken.accept (.atom (.number (numberOf_eq_ok_iff.mp read)))
  | string =>
    cases stepped
    exact taken.accept (.atom (.string text))
  | boolean =>
    obtain ⟨e, read, rfl⟩ := map_eq_ok stepped
    exact taken.accept (.atom (booleanOf_atom read))
  | symbol =>
    cases stepped
    exact taken.accept (.atom (.symbol text))
  | keyword =>
    cases stepped
    exact taken.accept (.atom (.keyword text))
  | openParen =>
    cases stepped
    exact .sequence .parenthesis text taken .nil
  | openBracket =>
    cases stepped
    exact .sequence .bracket text taken .nil
  | closeParen => exact taken.close stepped text
  | closeBracket => exact taken.close stepped text
  | quote =>
    cases stepped
    exact .quote text taken
  | endOfInput => exact absurd rfl inner

theorem run (taken : Taken ts s) (inner : ∀ t ∈ us, t.kind ≠ .endOfInput)
    (ran : us.foldlM Parser.step s = .ok s') : Taken (ts ++ us) s' := by
  induction us generalizing ts s with
  | nil =>
    cases ran
    rwa [List.append_nil]
  | cons t rest ih =>
    obtain ⟨first, later⟩ := List.forall_mem_cons.mp inner
    rw [List.foldlM_cons] at ran
    obtain ⟨u, stepped, ran⟩ := except_bind_eq_ok ran
    rw [List.append_cons]
    exact ih (taken.step first stepped) later ran

end Taken

theorem kind_of_mem_untilEnd {tokens : List Token} {t : Token} (member : t ∈ untilEnd tokens) :
    t.kind ≠ .endOfInput := by
  simpa using List.mem_takeWhile_imp member

theorem untilEnd_append {ts : List Token} (inner : ∀ t ∈ ts, t.kind ≠ .endOfInput)
    (us : List Token) : untilEnd (ts ++ us) = ts ++ untilEnd us :=
  List.takeWhile_append_of_pos (by simpa using inner)

theorem untilEnd_end : untilEnd [Token.endOfInput] = [] := by decide

theorem finish_eq_ok_iff {s : State} {es : List Expr} :
    finish s = .ok es ↔ s = ⟨[], es.reverse⟩ := by
  obtain ⟨levels, forms⟩ := s
  cases levels with
  | nil => simp [finish, List.reverse_eq_iff]
  | cons level levels => cases level <;> simp [finish]

theorem parseAll_eq_ok_iff {tokens : List Token} {es : List Expr} :
    parseAll tokens = .ok es ↔ DerivesAll (untilEnd tokens) es := by
  constructor
  · intro parsed
    obtain ⟨s, ran, finished⟩ := except_bind_eq_ok parsed
    have begun : Taken [] start := .forms .nil
    have taken := begun.run (fun t => kind_of_mem_untilEnd) ran
    rw [finish_eq_ok_iff.mp finished, List.nil_append] at taken
    generalize untilEnd tokens = ts at taken
    cases taken with
    | forms derived => rwa [List.reverse_reverse] at derived
  · intro derived
    have ran := takes_step.derivations derived start fun _ => trivial
    rw [start, acceptAll_forms, List.append_nil] at ran
    simp only [parseAll, start, ran]
    exact finish_eq_ok_iff.mpr rfl

/-! ## One expression -/

theorem ne_nil_of_derives {ts : List Token} {e : Expr} (derives : Derives ts e) : ts ≠ [] := by
  cases derives with
  | atom | parenthesis | bracket | quote => exact List.cons_ne_nil _ _

theorem step_of_stepOnce {s s' : State} {t : Token} (stepped : stepOnce s t = .ok s') :
    step s t = .ok s' := by
  rw [stepOnce.eq_def] at stepped
  split at stepped
  · cases stepped
  · exact stepped

theorem run_of_runOnce {s s' : State} {ts : List Token} (ran : ts.foldlM stepOnce s = .ok s') :
    ts.foldlM step s = .ok s' := by
  induction ts generalizing s with
  | nil => exact ran
  | cons t rest ih =>
    rw [List.foldlM_cons] at ran ⊢
    obtain ⟨u, stepped, ran⟩ := except_bind_eq_ok ran
    rw [step_of_stepOnce stepped]
    exact ih ran

/-- Behind a complete expression no further token is taken. -/
theorem runOnce_of_derives {ts us : List Token} {e : Expr} {s : State} (derives : Derives ts e)
    (ran : (ts ++ us).foldlM stepOnce start = .ok s) : us = [] := by
  have first := takes_stepOnce.derivation derives start (Or.inr rfl)
  rw [List.foldlM_append, first] at ran
  cases us with
  | nil => rfl
  | cons t rest => cases ran

theorem parse_eq_ok_iff {tokens : List Token} {e : Expr} :
    parse tokens = .ok e ↔ parseAll tokens = .ok [e] := by
  constructor
  · intro parsed
    obtain ⟨s, ran, read⟩ := except_bind_eq_ok parsed
    obtain ⟨es, finished, chosen⟩ := except_bind_eq_ok read
    have whole : parseAll tokens = .ok es := by
      simp only [parseAll, run_of_runOnce ran]
      exact finished
    have derived := parseAll_eq_ok_iff.mp whole
    generalize untilEnd tokens = ts at ran derived
    cases derived with
    | nil => cases chosen
    | cons first rest =>
      cases chosen
      have ended := runOnce_of_derives first ran
      cases rest with
      | nil => exact whole
      | cons second => exact absurd (List.append_eq_nil_iff.mp ended).1 (ne_nil_of_derives second)
  · intro parsed
    have derived := (parseAll_eq_ok_iff.mp parsed).single
    have ran := takes_stepOnce.derivation derived start (Or.inr rfl)
    simp only [parse, ran]
    rfl

/-- For tokens up to the first end mark: parsing gives exactly the expressions that the tokens
derive one after the other, no tokens derive two different lists of expressions, and a single
expression is parsed exactly when it is all that the tokens derive. -/
theorem parses_what_derives (tokens : List Token) :
    (∀ es, parseAll tokens = .ok es ↔ DerivesAll (untilEnd tokens) es) ∧
    (∀ es fs, DerivesAll (untilEnd tokens) es → DerivesAll (untilEnd tokens) fs → es = fs) ∧
    ∀ e, parse tokens = .ok e ↔ parseAll tokens = .ok [e] := by
  refine ⟨fun es => parseAll_eq_ok_iff, fun es fs first second => ?_, fun e => parse_eq_ok_iff⟩
  have same := (parseAll_eq_ok_iff.mpr first).symm.trans (parseAll_eq_ok_iff.mpr second)
  exact Except.ok.inj same

/-- A quoted require with its names in brackets; what follows the end mark does not count. -/
theorem parses_what_derives_of_quoted_require :
    let tokens : List Token := [⟨.quote, "'"⟩, ⟨.openParen, "("⟩, ⟨.symbol, "require"⟩,
      ⟨.string, "f"⟩, ⟨.keyword, "only"⟩, ⟨.openBracket, "["⟩, ⟨.symbol, "a"⟩,
      ⟨.closeBracket, "]"⟩, ⟨.closeParen, ")"⟩, .endOfInput, ⟨.closeParen, ")"⟩]
    let e : Expr := .list [.symbol "quote", .requireDecl "f" (.only ["a"])]
    DerivesAll (untilEnd tokens) [e] ∧ (∀ fs, DerivesAll (untilEnd tokens) fs → [e] = fs) ∧
      parse tokens = .ok e := by
  intro tokens e
  obtain ⟨parses, unique, single⟩ := parses_what_derives tokens
  have parsed : parseAll tokens = .ok [e] := by rfl
  have derived := (parses [e]).mp parsed
  exact ⟨derived, fun fs => unique [e] fs derived, (single e).mpr parsed⟩

end Parser

end ModularLisp
