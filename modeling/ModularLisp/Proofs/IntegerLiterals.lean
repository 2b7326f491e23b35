import ModularLisp.Proofs.ExactValues
import ModularLisp.Proofs.Pieces
import ModularLisp.Proofs.Quoting
import ModularLisp.Session

/-!
# Integer literals

A sign or none and digits of any script denote an integer. A short text is read in floating point,
which holds every integer of so few digits; a long one is kept and converted when it is evaluated.
So no literal loses a digit, whatever zeros lead it. One that overflows is refused when it is read,
and one with too many digits when it is evaluated or quoted.
-/

namespace ModularLisp

open NumberLiteral Text

/-- The text of an integer literal, and the integer that it denotes. -/
inductive IntegerLiteral : String → Int → Prop
  | intro {text : String} {sign ds : List Char} (sign_ok : Sign sign) (digits : Digits ds)
    (nonempty : ds ≠ []) (spelled : text.toList = sign ++ ds) :
    IntegerLiteral text (signed (decide (sign = ['-'])) (ofDigits ds))

theorem ofDigits_lt (ds : List Char) : ofDigits ds < tenPow ds.length := by
  have grows : ∀ (ds : List Char) (n : Nat),
      ds.foldl (fun n c => 10 * n + digitValue c) n < (n + 1) * tenPow ds.length := by
    intro ds
    induction ds with
    | nil => exact fun n => Nat.lt_of_lt_of_eq (Nat.lt_succ_self n) (Nat.mul_one _).symm
    | cons c rest ih =>
      intro n
      have digit := digitValue_lt c
      calc rest.foldl _ (10 * n + digitValue c)
          < (10 * n + digitValue c + 1) * tenPow rest.length := ih _
        _ ≤ ((n + 1) * 10) * tenPow rest.length := Nat.mul_le_mul_right _ (by omega)
        _ = (n + 1) * tenPow (rest.length + 1) := by
          rw [tenPow_succ, Nat.mul_assoc, Nat.mul_comm 10]
  exact Nat.lt_of_lt_of_eq (grows ds 0) (Nat.one_mul _)

theorem natAbs_signed (negative : Bool) (size : Nat) : (signed negative size).natAbs = size := by
  cases negative with
  | true => exact Int.natAbs_neg size
  | false => rfl

namespace IntegerLiteral

variable {text : String} {n : Int}

theorem toString (n : Int) : IntegerLiteral (toString n) n := by
  obtain ⟨sign, sign_ok, negative, spelled⟩ := toList_toString n
  have literal := intro sign_ok (digits_toDigits n.natAbs) Nat.toDigits_ne_nil spelled
  rwa [negative, ofDigits_toDigits, signed_natAbs] at literal

theorem digitCount_toString {n : Int} {k : Nat} (some : 0 < k) (small : n.natAbs < tenPow k) :
    IntegerText.digitCount (ToString.toString n) ≤ k := by
  obtain ⟨sign, sign_ok, -, spelled⟩ := toList_toString n
  rw [digitCount_digits sign_ok (digits_toDigits n.natAbs) spelled Nat.toDigits_ne_nil]
  exact (Nat.length_toDigits_le_iff (by decide) some).mpr small

theorem zeros {count : Nat} (some : 0 < count) :
    IntegerLiteral (String.ofList (List.replicate count '0')) 0 := by
  have nonempty : List.replicate count '0' ≠ [] :=
    mt (List.replicate_eq_nil_iff '0').mp (Nat.ne_zero_of_lt some)
  have literal := intro .none (digits_replicate count) nonempty String.toList_ofList
  rwa [ofDigits_replicate] at literal

theorem grammatical (literal : IntegerLiteral text n) : Literal text.toList := by
  obtain ⟨sign_ok, digits, nonempty, spelled⟩ := literal
  have derived := Literal.intro sign_ok (.whole digits nonempty) .none
  rwa [List.append_nil, ← spelled] at derived

theorem denotes (literal : IntegerLiteral text n) : integerText? text = some n := by
  obtain ⟨sign_ok, digits, nonempty, spelled⟩ := literal
  exact integerText?_digits sign_ok digits spelled nonempty

theorem digitCount_le (literal : IntegerLiteral text n) :
    IntegerText.digitCount text ≤ text.length := by
  obtain ⟨sign_ok, digits, nonempty, spelled⟩ := literal
  rw [digitCount_digits sign_ok digits spelled nonempty, ← String.length_toList, spelled,
    List.length_append]
  exact Nat.le_add_left _ _

/-- Sign and leading zeros count. -/
theorem isLong_iff (literal : IntegerLiteral text n) :
    isLongIntegerText text = true ↔ 15 < text.length := by
  obtain ⟨sign_ok, digits, -, spelled⟩ := literal
  rw [isLongIntegerText_digits sign_ok digits spelled, decide_eq_true_iff, ← String.length_toList,
    spelled, List.length_append]

/-- The number that the text is read as; it is rounded only if the text is long. -/
theorem read? (literal : IntegerLiteral text n) :
    ∃ l, NumberText.read? text = some (.decimal l) ∧
      (l.value.isInfinite = true ↔ Binary64.rangeEnd ≤ n.natAbs) ∧
      (text.length ≤ 15 → (Value.number l.value).IsInteger n) := by
  obtain ⟨sign_ok, digits, nonempty, spelled⟩ := literal
  rename_i sign ds
  have read := read?_parts sign_ok digits digits_nil (.inl ⟨rfl, rfl⟩) (.inl nonempty) .none
  rw [List.append_nil, List.append_nil, ← spelled] at read
  have value : (⟨decide (sign = ['-']), ds, [], 0⟩ : NumberLiteral).value =
      Binary64.ofDecimal (decide (sign = ['-'])) ⟨ofDigits ds, 0⟩ := by
    rw [NumberLiteral.value, decimal, List.append_nil]
    rfl
  refine ⟨⟨decide (sign = ['-']), ds, [], 0⟩, ?_, ?_, fun short => ?_⟩
  · simp only [NumberText.read?, read]
    rfl
  · rw [value, Binary64.ofDecimal_isInfinite_iff, natAbs_signed]
  · rw [← String.length_toList, spelled, List.length_append] at short
    have few : tenPow ds.length ≤ tenPow 15 := tenPow_le_tenPow (by omega)
    have small := Nat.lt_of_lt_of_le (ofDigits_lt ds) few
    have decimal : tenPow 15 < tenPow 400 := by decide +kernel
    have binary : tenPow 15 < twoPow 53 := by decide
    rw [value, Binary64.ofDecimal_integer (Nat.lt_trans small decimal)]
    exact Value.isInteger_number (Binary64.ofRatio_exact (Nat.lt_trans small binary) _)

theorem atom_long (literal : IntegerLiteral text n) (within : n.natAbs < Binary64.rangeEnd)
    (long : 15 < text.length) : Atom ⟨.number, text⟩ (.bigNumber text) := by
  obtain ⟨l, read, infinite, -⟩ := literal.read?
  have finite : l.value.isInfinite = false :=
    Bool.eq_false_iff.mpr fun beyond => Nat.not_lt.mpr (infinite.mp beyond) within
  exact .number (.integer read finite (literal.isLong_iff.mpr long))

theorem atom_short (literal : IntegerLiteral text n) (within : n.natAbs < Binary64.rangeEnd)
    (short : text.length ≤ 15) :
    ∃ x, Atom ⟨.number, text⟩ (.number x) ∧ (Value.number x).IsInteger n := by
  obtain ⟨l, read, infinite, exact⟩ := literal.read?
  have finite : l.value.isInfinite = false :=
    Bool.eq_false_iff.mpr fun beyond => Nat.not_lt.mpr (infinite.mp beyond) within
  have kept : isLongIntegerText text = false :=
    Bool.eq_false_iff.mpr fun long => Nat.not_lt.mpr short (literal.isLong_iff.mp long)
  exact ⟨l.value, .number (.real read finite kept), exact short⟩

/-- Within the range the token is an expression whose value, quoted or evaluated, is the integer. -/
theorem atom (literal : IntegerLiteral text n) (within : n.natAbs < Binary64.rangeEnd)
    (few : IntegerText.digitCount text ≤ IntegerText.maxDigits) :
    ∃ e v, Atom ⟨.number, text⟩ e ∧ e.datum = .ok v ∧ v.IsInteger n ∧
      ((∃ k, v = .bigNumber k) ↔ 15 < text.length) ∧
      ∀ loader fuel scope s, Evaluation.eval loader (fuel + 1) e scope s = .ok v s := by
  by_cases long : 15 < text.length
  · have whole := integerOf_eq_ok_iff.mpr ⟨literal.denotes, few⟩
    refine ⟨.bigNumber text, .bigNumber n, literal.atom_long within long, ?_,
      Value.isInteger_bigNumber n, iff_of_true ⟨n, rfl⟩ long, fun loader fuel scope s => ?_⟩
    · rw [Expr.datum, whole]
      rfl
    · simp only [Evaluation.eval, Evaluation.step, whole]
      rfl
  · obtain ⟨x, atom, integer⟩ := literal.atom_short within (Nat.not_lt.mp long)
    exact ⟨.number x, .number x, atom, rfl, integer, iff_of_false nofun long, fun _ _ _ _ => rfl⟩

theorem piece (text : String) : Piece [⟨.number, text⟩] text.toList :=
  .token (.plain ⟨nofun, nofun⟩)

theorem printable (literal : IntegerLiteral text n) :
    ∀ t ∈ [Token.mk .number text], t.Printable :=
  List.forall_mem_singleton.mpr (.number literal.grammatical)

/-- The mark and the form are read as one. -/
theorem readAll_quoted (literal : IntegerLiteral text n) {e : Expr}
    (atom : Atom ⟨.number, text⟩ e) :
    Expr.readAll ("'" ++ text) = .ok [.list [.symbol "quote", e]] ∧
      Expr.readAll ("(quote " ++ text ++ ")") = .ok [.list [.symbol "quote", e]] := by
  have printable := literal.printable
  constructor
  · have chars : ("'" ++ text).toList = '\x27' :: text.toList := by
      rw [String.toList_append]
      rfl
    refine Expr.readAll_of_piece (chars ▸ (piece text).quoted) ?_ (.quote "'" (.atom atom))
    exact List.forall_mem_cons.mpr ⟨.quote, printable⟩
  · have word : Token.Printable ⟨.symbol, "quote"⟩ := by
      have isWord : IsWord "quote".toList := by decide
      exact Token.ofAtom_printable isWord
    have chars : ("(quote " ++ text ++ ")").toList =
        '(' :: ("quote".toList ++ ' ' :: text.toList) ++ [')'] := by
      simp only [String.toList_append]
      rfl
    have head : Piece [⟨.symbol, "quote"⟩] "quote".toList := .token (.plain ⟨nofun, nofun⟩)
    have inside : DerivesAll ([⟨.symbol, "quote"⟩] ++ [⟨.number, text⟩]) [.symbol "quote", e] :=
      .cons (.atom (.symbol "quote")) (Derives.atom atom).alone
    have plain : Denotes [.symbol "quote", e] (.list [.symbol "quote", e]) := .list (by simp)
    refine Expr.readAll_of_piece (chars ▸ (head.spaced (piece text)).enclosed) ?_
      (.parenthesis "(" ")" inside plain)
    simp only [List.cons_append, List.nil_append, List.forall_mem_cons]
    exact ⟨.openParen, word, (List.forall_mem_singleton.mp printable), .closeParen, nofun⟩

theorem read_overflow (literal : IntegerLiteral text n)
    (beyond : Binary64.rangeEnd ≤ n.natAbs) :
    Expr.read text = .error (.numberOutOfRange text) ∧
      Expr.readAll text = .error (.numberOutOfRange text) := by
  obtain ⟨l, read, infinite, -⟩ := literal.read?
  have refused : Parser.numberOf text = .error (.numberOutOfRange text) := by
    simp only [Parser.numberOf, read, infinite.mpr beyond, if_true]
  have taken : Parser.step Parser.start ⟨.number, text⟩ = .error (.numberOutOfRange text) := by
    simp only [Parser.step, refused]
    rfl
  have tokens := Expr.tokens_of_piece (piece text) literal.printable
  constructor
  · rw [Expr.read, tokens]
    change (Parser.step Parser.start ⟨.number, text⟩ >>= _ >>= _) = _
    rw [taken]
    rfl
  · rw [Expr.readAll, tokens]
    change (Parser.step Parser.start ⟨.number, text⟩ >>= _ >>= _) = _
    rw [taken]
    rfl

end IntegerLiteral

namespace Session

theorem evalSource_single {source : String} {e : Expr} (read : Expr.readAll source = .ok [e])
    (loader : Option Loader) (fuel : Nat) (i : Interpreter) (s : State) :
    evalSource loader fuel source i s = Evaluation.eval loader fuel e i.root s := by
  simp only [evalSource, read, Evaluation.evalForms, Evaluation.evalBody]
  change Action.bind _ _ s = _
  rw [Action.bind]
  cases Evaluation.eval loader fuel e i.root s <;> rfl

/-- The three texts that evaluate and quote a literal. -/
theorem evalSource_literal {text : String} {n : Int} (literal : IntegerLiteral text n) {e : Expr}
    (atom : Atom ⟨.number, text⟩ e) (loader : Option Loader) (fuel : Nat) (i : Interpreter)
    (s : State) :
    evalSource loader (fuel + 1) text i s = Evaluation.eval loader (fuel + 1) e i.root s ∧
      evalSource loader (fuel + 1) ("'" ++ text) i s = Evaluation.guarded e.datum s ∧
      evalSource loader (fuel + 1) ("(quote " ++ text ++ ")") i s =
        Evaluation.guarded e.datum s := by
  have read := Expr.readAll_of_piece (IntegerLiteral.piece text) literal.printable (.atom atom)
  obtain ⟨marked, formed⟩ := literal.readAll_quoted atom
  exact ⟨evalSource_single read loader (fuel + 1) i s,
    evalSource_single marked loader (fuel + 1) i s, evalSource_single formed loader (fuel + 1) i s⟩

/-- An integer literal that does not overflow is read. If it has not too many digits, evaluated or
quoted it gives a number whose exact value is the integer, one of unbounded size exactly if the text
is longer than fifteen characters; otherwise it is refused in both ways. A literal that overflows is
refused when it is read. -/
theorem integer_literals_keep_value {text : String} {n : Int} (literal : IntegerLiteral text n) :
    (n.natAbs < Binary64.rangeEnd → IntegerText.digitCount text ≤ IntegerText.maxDigits →
      ∃ e v, Expr.read text = .ok e ∧ e.datum = .ok v ∧
        v.IsInteger n ∧ ((∃ k, v = .bigNumber k) ↔ 15 < text.length) ∧
        ∀ loader fuel i s, evalSource loader (fuel + 1) text i s = .ok v s ∧
          evalSource loader (fuel + 1) ("'" ++ text) i s = .ok v s ∧
          evalSource loader (fuel + 1) ("(quote " ++ text ++ ")") i s = .ok v s) ∧
    (n.natAbs < Binary64.rangeEnd → IntegerText.maxDigits < IntegerText.digitCount text →
      Expr.read text = .ok (.bigNumber text) ∧
      ∀ loader fuel i s, ∀ source ∈ [text, "'" ++ text, "(quote " ++ text ++ ")"],
        evalSource loader (fuel + 1) source i s =
          .error (.fault (.tooManyDigits (IntegerText.digitCount text))) s) ∧
    (Binary64.rangeEnd ≤ n.natAbs →
      Expr.read text = .error (.numberOutOfRange text) ∧
      Expr.readAll text = .error (.numberOutOfRange text) ∧
      (ReadError.numberOutOfRange text).kind = .invalidNumber) := by
  have read : ∀ {e}, Atom ⟨.number, text⟩ e → Expr.read text = .ok e := fun atom =>
    Expr.read_eq_ok_iff.mpr
      (Expr.readAll_of_piece (IntegerLiteral.piece text) literal.printable (.atom atom))
  refine ⟨fun within few => ?_, fun within many => ?_, fun beyond => ?_⟩
  · obtain ⟨e, v, atom, datum, integer, kind, evaluated⟩ := literal.atom within few
    refine ⟨e, v, read atom, datum, integer, kind, fun loader fuel i s => ?_⟩
    obtain ⟨plain, marked, formed⟩ := evalSource_literal literal atom loader fuel i s
    rw [datum] at marked formed
    exact ⟨plain.trans (evaluated loader fuel i.root s), marked, formed⟩
  · have lengthy := Nat.lt_of_lt_of_le many literal.digitCount_le
    have atom := literal.atom_long within (Nat.lt_trans (by decide) lengthy)
    refine ⟨read atom, fun loader fuel i s => ?_⟩
    obtain ⟨plain, marked, formed⟩ := evalSource_literal literal atom loader fuel i s
    have refused := integerOf_of_many many
    simp only [List.forall_mem_cons]
    refine ⟨plain.trans ?_, marked.trans ?_, formed.trans ?_, nofun⟩
    · simp only [Evaluation.eval, Evaluation.step, refused]
      rfl
    · rw [Expr.datum, refused]
      rfl
    · rw [Expr.datum, refused]
      rfl
  · obtain ⟨one, all⟩ := literal.read_overflow beyond
    exact ⟨one, all, rfl⟩

/-- A sign and leading zeros that make a small integer of another script long, and digits that
overflow. -/
theorem integer_literals_keep_value_of_padded_text :
    let text := "-00000000000000\u0664\u0662"
    let long := String.ofList (List.replicate 309 '9')
    IntegerLiteral text (-42) ∧ (-42 : Int).natAbs < Binary64.rangeEnd ∧ 15 < text.length ∧
      IntegerText.digitCount text ≤ IntegerText.maxDigits ∧
      (∃ v, v.IsInteger (-42) ∧ (∃ k, v = .bigNumber k) ∧
        ∀ i s, evalSource none 1 text i s = .ok v s) ∧
      IntegerLiteral long (tenPow 309 - 1) ∧ Binary64.rangeEnd ≤ (tenPow 309 - 1 : Int).natAbs ∧
      Expr.read long = .error (.numberOutOfRange long) := by
  intro text long
  let zeros := List.replicate 14 '0' ++ ['\u0664', '\u0662']
  let nines := List.replicate 309 '9'
  have padded : IntegerLiteral text (-42) := by
    have digits : Digits zeros := List.all_eq_true.mp (by decide)
    have value : signed (decide (['-'] = ['-'])) (ofDigits zeros) = -42 := by decide
    exact value ▸ .intro .minus digits (by decide) (by decide)
  have huge : IntegerLiteral long (tenPow 309 - 1) := by
    have digits : Digits nines := fun c member => (List.mem_replicate.mp member).2 ▸ (by decide)
    have value : signed (decide (([] : List Char) = ['-'])) (ofDigits nines) = tenPow 309 - 1 := by
      decide +kernel
    exact value ▸ .intro .none digits (by decide) String.toList_ofList
  have within : (-42 : Int).natAbs < Binary64.rangeEnd := by decide +kernel
  have beyond : Binary64.rangeEnd ≤ (tenPow 309 - 1 : Int).natAbs := by decide +kernel
  have lengthy : 15 < text.length := by decide
  have few : IntegerText.digitCount text ≤ IntegerText.maxDigits := by decide
  obtain ⟨e, v, -, -, integer, kind, evaluated⟩ :=
    (integer_literals_keep_value padded).1 within few
  obtain ⟨-, -, refused⟩ := integer_literals_keep_value huge
  exact ⟨padded, within, lengthy, few,
    ⟨v, integer, kind.mpr lengthy, fun i s => (evaluated none 0 i s).1⟩,
    huge, beyond, (refused beyond).1⟩

/-- A zero that is spelled with one digit too many: it does not overflow, but it has no value. -/
theorem integer_literal_without_value :
    let text := String.ofList (List.replicate 4301 '0')
    IntegerLiteral text 0 ∧ (0 : Int).natAbs < Binary64.rangeEnd ∧
      ∀ loader fuel i s v t, evalSource loader (fuel + 1) text i s ≠ .ok v t := by
  intro text
  have literal : IntegerLiteral text 0 := IntegerLiteral.zeros (by decide)
  have within : (0 : Int).natAbs < Binary64.rangeEnd := by decide +kernel
  refine ⟨literal, within, fun loader fuel i s v t => ?_⟩
  have long : 15 < text.length := by
    rw [String.length_ofList, List.length_replicate]
    decide
  have many : IntegerText.maxDigits < 4301 := by decide
  rw [(evalSource_literal literal (literal.atom_long within long) loader fuel i s).1]
  simp only [Evaluation.eval, Evaluation.step, text, integerOf_zeros many]
  exact nofun

end Session

end ModularLisp
