import ModularLisp.Proofs.Grammar

/-!
# Quoting sees through declarations

Tokens can be read as plain data: an atom is its value, a sequence in parentheses or brackets the
list of its elements, a quoted datum the list of `quote` and the datum. No head of a sequence plays
a part in that. Quoting a tree gives just this reading of the tokens that the tree was parsed from,
so making declarations of lists loses nothing. Only an integer with too many digits cannot be
quoted.
-/

namespace ModularLisp

/-- The value of a token that is a datum by itself. -/
inductive AtomValue : Token → Value → Prop
  | number {text : String} {x : Binary64} (shape : NumberShape text (.number x)) :
    AtomValue ⟨.number, text⟩ (.number x)
  | integer {text : String} {n : Int} (shape : NumberShape text (.bigNumber text))
    (exact : integerText? text = some n) : AtomValue ⟨.number, text⟩ (.bigNumber n)
  | string (text : String) : AtomValue ⟨.string, text⟩ (.string text)
  | yes : AtomValue ⟨.boolean, "true"⟩ (.boolean true)
  | no : AtomValue ⟨.boolean, "false"⟩ (.boolean false)
  | symbol (name : String) : AtomValue ⟨.symbol, name⟩ (.symbol name)
  | keyword (name : String) : AtomValue ⟨.keyword, name⟩ (.keyword name)

mutual

/-- The tokens are one datum. -/
inductive Datum : List Token → Value → Prop
  | atom {t : Token} {v : Value} (atom : AtomValue t v) : Datum [t] v
  | parenthesis {ts : List Token} {vs : List Value} (opening closing : String)
    (inside : Data ts vs) :
    Datum (⟨.openParen, opening⟩ :: ts ++ [⟨.closeParen, closing⟩]) (.list vs)
  | bracket {ts : List Token} {vs : List Value} (opening closing : String) (inside : Data ts vs) :
    Datum (⟨.openBracket, opening⟩ :: ts ++ [⟨.closeBracket, closing⟩]) (.list vs)
  | quote {ts : List Token} {v : Value} (mark : String) (quoted : Datum ts v) :
    Datum (⟨.quote, mark⟩ :: ts) (.list [.symbol "quote", v])

/-- The tokens are data one after the other. -/
inductive Data : List Token → List Value → Prop
  | nil : Data [] []
  | cons {ts us : List Token} {v : Value} {vs : List Value} (first : Datum ts v)
    (rest : Data us vs) : Data (ts ++ us) (v :: vs)

end

namespace Expr

theorem datumAll_cons {e : Expr} {v : Value} (first : e.datum = .ok v) (es : List Expr) :
    datumAll (e :: es) = (datumAll es).map (v :: ·) := by
  simp only [datumAll, first]
  cases datumAll es <;> rfl

theorem datumAll_symbols (names : List String) :
    datumAll (names.map .symbol) = .ok (symbols names) := by
  induction names with
  | nil => rfl
  | cons name rest ih =>
    rw [List.map_cons, datumAll_cons rfl, ih]
    rfl

end Expr

/-- Quoting gives the list of the elements, whatever they have been made into. -/
theorem Denotes.datum {es : List Expr} {e : Expr} (denotes : Denotes es e) :
    e.datum = (Expr.datumAll es).map .list := by
  cases denotes with
  | list => rw [Expr.datum]
  | importDecl shape =>
    obtain ⟨name⟩ := shape
    rfl
  | loadDecl shape =>
    obtain ⟨filename⟩ := shape
    rfl
  | moduleDecl shape =>
    obtain ⟨name, exports, form, forms⟩ := shape
    have exported : (Expr.list (.symbol "export" :: exports.map .symbol)).datum =
        .ok (.list (Expr.symbols ("export" :: exports))) := by
      rw [Expr.datum, Expr.datumAll_cons rfl, Expr.datumAll_symbols]
      rfl
    generalize form :: forms = body
    rw [Expr.datum, Expr.datumAll_cons rfl, Expr.datumAll_cons rfl, Expr.datumAll_cons exported]
    cases Expr.datumAll body <;> rfl
  | requireDecl shape =>
    cases shape with
    | all | qualified => rfl
    | @only filename payload names sequence =>
      have chosen := Expr.datumAll_symbols names
      have listed : payload.datum = .ok (.list (Expr.symbols names)) := by
        cases payload with
        | list | bracket =>
          cases sequence
          rw [Expr.datum, chosen]
          rfl
        | _ => cases sequence
      rw [Expr.datumAll_cons rfl, Expr.datumAll_cons rfl, Expr.datumAll_cons rfl,
        Expr.datumAll_cons listed]
      rfl

theorem NumberText.isDecimalLiteral_of_decimal {text : String} {l : NumberLiteral}
    (read : read? text = some (.decimal l)) : isDecimalLiteral text = true := by
  cases literal : NumberLiteral.read? text.toList with
  | some l => rw [isDecimalLiteral, literal]; rfl
  | none =>
    simp only [read?, literal, special?] at read
    split_ifs at read <;> cases read

theorem Atom.datum {t : Token} {e : Expr} (atom : Atom t e) (limited : t.DigitLimited) :
    ∃ v, e.datum = .ok v ∧ AtomValue t v := by
  cases atom with
  | string text => exact ⟨_, rfl, .string text⟩
  | yes => exact ⟨_, rfl, .yes⟩
  | no => exact ⟨_, rfl, .no⟩
  | symbol name => exact ⟨_, rfl, .symbol name⟩
  | keyword name => exact ⟨_, rfl, .keyword name⟩
  | @number text e shape =>
    cases shape with
    | real read finite short => exact ⟨_, rfl, .number (.real read finite short)⟩
    | infinity read => exact ⟨_, rfl, .number (.infinity read)⟩
    | nan read => exact ⟨_, rfl, .number (.nan read)⟩
    | integer read finite long =>
      obtain ⟨n, exact⟩ := integerText?_of_long (NumberText.isDecimalLiteral_of_decimal read) long
      refine ⟨.bigNumber n, ?_, .integer (.integer read finite long) exact⟩
      rw [Expr.datum, integerOf_eq_ok_iff.mpr ⟨exact, limited rfl long⟩]
      rfl

theorem forall_mem_inside {P : Token → Prop} {opening closing : Token} {ts : List Token}
    (all : ∀ t ∈ opening :: ts ++ [closing], P t) : ∀ t ∈ ts, P t :=
  fun t member => all t (List.mem_append_left _ (List.mem_cons_of_mem opening member))

mutual

/-- Quoting what tokens derive gives the datum that they are. -/
theorem Derives.datum {ts : List Token} {e : Expr} (limited : ∀ t ∈ ts, t.DigitLimited) :
    Derives ts e → ∃ v, e.datum = .ok v ∧ Datum ts v
  | .atom atom => by
    obtain ⟨v, denoted, value⟩ := atom.datum (List.forall_mem_singleton.mp limited)
    exact ⟨v, denoted, .atom value⟩
  | .parenthesis opening closing inside denotes => by
    obtain ⟨vs, denoted, data⟩ := inside.data (forall_mem_inside limited)
    refine ⟨.list vs, ?_, .parenthesis opening closing data⟩
    rw [denotes.datum, denoted]
    rfl
  | .bracket opening closing inside => by
    obtain ⟨vs, denoted, data⟩ := inside.data (forall_mem_inside limited)
    refine ⟨.list vs, ?_, .bracket opening closing data⟩
    rw [Expr.datum, denoted]
    rfl
  | .quote mark quoted => by
    obtain ⟨v, denoted, datum⟩ := quoted.datum (List.forall_mem_cons.mp limited).2
    refine ⟨.list [.symbol "quote", v], ?_, .quote mark datum⟩
    rw [Expr.datum, Expr.datumAll_cons rfl, Expr.datumAll_cons denoted]
    rfl

theorem DerivesAll.data {ts : List Token} {es : List Expr} (limited : ∀ t ∈ ts, t.DigitLimited) :
    DerivesAll ts es → ∃ vs, Expr.datumAll es = .ok vs ∧ Data ts vs
  | .nil => ⟨[], rfl, .nil⟩
  | .cons first rest => by
    obtain ⟨here, later⟩ := List.forall_mem_append.mp limited
    obtain ⟨v, one, datum⟩ := first.datum here
    obtain ⟨vs, others, data⟩ := rest.data later
    refine ⟨v :: vs, ?_, .cons datum data⟩
    rw [Expr.datumAll_cons one, others]
    rfl

end

theorem Parser.derives_unique {ts : List Token} {e f : Expr} (first : Derives ts e)
    (second : Derives ts f) : e = f := by
  have one := takes_step.derivation first start trivial
  have other := takes_step.derivation second start trivial
  cases Except.ok.inj (one.symm.trans other)
  rfl

/-- The token with a bracket in place of a parenthesis. -/
def bracketed (t : Token) : Token :=
  match t.kind with
  | .openParen => ⟨.openBracket, t.text⟩
  | .closeParen => ⟨.closeBracket, t.text⟩
  | _ => t

theorem AtomValue.derives {t : Token} {v : Value} (atom : AtomValue t v)
    (limited : t.DigitLimited) : ∃ e, Derives [bracketed t] e ∧ e.datum = .ok v := by
  cases atom with
  | number shape => exact ⟨_, .atom (.number shape), rfl⟩
  | integer shape exact =>
    refine ⟨_, .atom (.number shape), ?_⟩
    cases shape with
    | integer _ _ long =>
      rw [Expr.datum, integerOf_eq_ok_iff.mpr ⟨exact, limited rfl long⟩]
      rfl
  | string text => exact ⟨_, .atom (.string text), rfl⟩
  | yes => exact ⟨_, .atom .yes, rfl⟩
  | no => exact ⟨_, .atom .no, rfl⟩
  | symbol name => exact ⟨_, .atom (.symbol name), rfl⟩
  | keyword name => exact ⟨_, .atom (.keyword name), rfl⟩

-- Brackets never make a declaration, so between them every datum derives a tree.
mutual

theorem Datum.derives {ts : List Token} {v : Value} (limited : ∀ t ∈ ts, t.DigitLimited) :
    Datum ts v → ∃ e, Derives (ts.map bracketed) e ∧ e.datum = .ok v
  | .atom atom => atom.derives (List.forall_mem_singleton.mp limited)
  | .parenthesis opening closing inside | .bracket opening closing inside => by
    obtain ⟨es, derived, denoted⟩ := inside.derives (forall_mem_inside limited)
    have whole := Derives.bracket opening closing derived
    refine ⟨.bracket es, ?_, ?_⟩
    · rw [List.map_append]
      exact whole
    · rw [Expr.datum, denoted]
      rfl
  | .quote mark quoted => by
    obtain ⟨e, derived, denoted⟩ := quoted.derives (List.forall_mem_cons.mp limited).2
    refine ⟨_, .quote mark derived, ?_⟩
    rw [Expr.datum, Expr.datumAll_cons rfl, Expr.datumAll_cons denoted]
    rfl

theorem Data.derives {ts : List Token} {vs : List Value} (limited : ∀ t ∈ ts, t.DigitLimited) :
    Data ts vs → ∃ es, DerivesAll (ts.map bracketed) es ∧ Expr.datumAll es = .ok vs
  | .nil => ⟨[], .nil, rfl⟩
  | .cons first rest => by
    obtain ⟨here, later⟩ := List.forall_mem_append.mp limited
    obtain ⟨e, one, datum⟩ := first.derives here
    obtain ⟨es, others, data⟩ := rest.derives later
    refine ⟨e :: es, ?_, ?_⟩
    · rw [List.map_append]
      exact .cons one others
    · rw [Expr.datumAll_cons datum, data]
      rfl

end

theorem Datum.unique {ts : List Token} (limited : ∀ t ∈ ts, t.DigitLimited) {v w : Value}
    (first : Datum ts v) (second : Datum ts w) : v = w := by
  obtain ⟨e, derived, denoted⟩ := first.derives limited
  obtain ⟨f, again, same⟩ := second.derives limited
  cases Parser.derives_unique derived again
  exact Except.ok.inj (denoted.symm.trans same)

/-- If no literal among the tokens up to the end mark has too many digits, quoting the tree that the
tokens are parsed as succeeds, and gives the one datum that these tokens are. -/
theorem Parser.quoting_sees_through_declarations {tokens : List Token} {e : Expr}
    (parsed : parse tokens = .ok e) (limited : ∀ t ∈ untilEnd tokens, t.DigitLimited) :
    ∃ v, e.datum = .ok v ∧ ∀ w, Datum (untilEnd tokens) w ↔ w = v := by
  have derived := (parseAll_eq_ok_iff.mp (parse_eq_ok_iff.mp parsed)).single
  obtain ⟨v, denoted, datum⟩ := derived.datum limited
  refine ⟨v, denoted, fun w => ⟨fun other => other.unique limited datum, ?_⟩⟩
  rintro rfl
  exact datum

/-- A module with an empty export list, and in it a quoted require of no names at all. -/
theorem Parser.quoting_sees_through_declarations_of_nested_module :
    let tokens : List Token := [⟨.openParen, "("⟩, ⟨.symbol, "module"⟩, ⟨.symbol, "m"⟩,
      ⟨.openParen, "("⟩, ⟨.symbol, "export"⟩, ⟨.closeParen, ")"⟩, ⟨.quote, "'"⟩, ⟨.openParen, "("⟩,
      ⟨.symbol, "require"⟩, ⟨.string, "f"⟩, ⟨.keyword, "only"⟩, ⟨.openBracket, "["⟩,
      ⟨.closeBracket, "]"⟩, ⟨.closeParen, ")"⟩, ⟨.closeParen, ")"⟩, .endOfInput]
    let e : Expr := .moduleDecl "m" [] [.list [.symbol "quote", .requireDecl "f" (.only [])]]
    let v : Value := .list [.symbol "module", .symbol "m", .list [.symbol "export"],
      .list [.symbol "quote",
        .list [.symbol "require", .string "f", .keyword "only", .list []]]]
    parse tokens = .ok e ∧ (∀ t ∈ untilEnd tokens, t.DigitLimited) ∧
      e.datum = .ok v ∧ ∀ w, Datum (untilEnd tokens) w ↔ w = v := by
  intro tokens e v
  have parsed : parse tokens = .ok e := rfl
  have limited : ∀ t ∈ untilEnd tokens, t.DigitLimited := by decide
  obtain ⟨u, denoted, datum⟩ := quoting_sees_through_declarations parsed limited
  have same : e.datum = .ok v := rfl
  cases denoted.symm.trans same
  exact ⟨parsed, limited, same, datum⟩

/-- More than fifteen zeros are a literal that keeps its text. -/
theorem numberShape_zeros {count : Nat} (long : 15 < count) :
    NumberShape (String.ofList (List.replicate count '0'))
      (.bigNumber (String.ofList (List.replicate count '0'))) := by
  have digits := NumberLiteral.digits_replicate count
  have nonempty : List.replicate count '0' ≠ [] :=
    mt (List.replicate_eq_nil_iff '0').mp (Nat.ne_zero_of_lt long)
  have read := NumberLiteral.read?_parts .none digits NumberLiteral.digits_nil (.inl ⟨rfl, rfl⟩)
    (.inl nonempty) .none
  simp only [List.nil_append, List.append_nil] at read
  have value : (⟨false, List.replicate count '0', [], 0⟩ : NumberLiteral).value =
      Binary64.ofDecimal false ⟨0, 0⟩ := by
    rw [NumberLiteral.value, NumberLiteral.decimal, List.append_nil,
      NumberLiteral.ofDigits_replicate]
    rfl
  have spelled : (String.ofList (List.replicate count '0')).toList =
      [] ++ List.replicate count '0' := String.toList_ofList
  have whole : NumberText.read? (String.ofList (List.replicate count '0')) =
      some (.decimal ⟨false, List.replicate count '0', [], 0⟩) := by
    simp only [NumberText.read?, String.toList_ofList, read]
    rfl
  refine .integer whole ?_ ?_
  · rw [value]
    decide
  · rw [NumberLiteral.isLongIntegerText_digits .none digits spelled, decide_eq_true_iff,
      List.length_replicate]
    exact Nat.lt_of_lt_of_eq long (Nat.zero_add count).symm

/-- A zero that is spelled with one digit too many is read, but it cannot be quoted. -/
theorem Parser.quoting_fails_on_many_digits :
    let text := String.ofList (List.replicate 4301 '0')
    parse [⟨.number, text⟩] = .ok (.bigNumber text) ∧ ∀ v, (Expr.bigNumber text).datum ≠ .ok v := by
  intro text
  have many : IntegerText.maxDigits < 4301 := by decide
  constructor
  · refine parse_eq_ok_iff.mpr (parseAll_eq_ok_iff.mpr ?_)
    exact (Derives.atom (.number (numberShape_zeros (by decide)))).alone
  · intro v quoted
    rw [Expr.datum, integerOf_zeros many] at quoted
    cases quoted

end ModularLisp
