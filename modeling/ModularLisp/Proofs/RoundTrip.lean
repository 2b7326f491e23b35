import ModularLisp.Proofs.IntegerLiterals
import ModularLisp.Value.Display

/-!
# Written data are read back

The written form of a datum is read as an expression that quotes to an equal datum. It need not be
the same one: the length of its text decides which kind of number an integer comes back as, and the
two kinds are equal by value.
-/

namespace ModularLisp

/-- Data with a written form that stands for them. The written form of a keyword or a symbol is a
word of that kind, an integer does not overflow when it is read, an integral number is written
without point and exponent, and no list looks like a declaration. -/
inductive Value.Legible : Value → Prop
  | string (text : String) : Legible (.string text)
  | boolean (b : Bool) : Legible (.boolean b)
  | keyword {name : String} (word : IsWord (":" ++ name).toList)
    (classified : Token.ofAtom (":" ++ name) = ⟨.keyword, name⟩) : Legible (.keyword name)
  | symbol {name : String} (word : IsWord name.toList)
    (classified : Token.ofAtom name = ⟨.symbol, name⟩) : Legible (.symbol name)
  | bigNumber {n : Int} (small : n.natAbs < tenPow 308) : Legible (.bigNumber n)
  | number {x : Binary64} {n : Int} (integral : x.toInt? = some n)
    (small : n.natAbs < tenPow 16) : Legible (.number x)
  | list {elements : List Value} (legible : ∀ v ∈ elements, v.Legible)
    (plain : ∀ head ∈ ["module", "import", "load", "require"],
      elements.head? ≠ some (.symbol head)) : Legible (.list elements)

/-- The characters are tokens of one expression, which quotes to an equal value. -/
inductive Value.ReadBack : Value → List Char → Prop
  | intro {v w : Value} {cs : List Char} {ts : List Token} {e : Expr}
    (printable : ∀ t ∈ ts, t.Printable) (piece : Piece ts cs) (derives : Derives ts e)
    (datum : e.datum = .ok w) (same : w.same v = true) : ReadBack v cs

/-- The same for expressions one after the other. -/
inductive Value.ReadBackAll : List Value → List Char → Prop
  | intro {vs ws : List Value} {cs : List Char} {ts : List Token} {es : List Expr}
    (printable : ∀ t ∈ ts, t.Printable) (piece : Piece ts cs) (derives : DerivesAll ts es)
    (datum : Expr.datumAll es = .ok ws) (same : Value.sameAll ws vs = true) : ReadBackAll vs cs

namespace Value

theorem ReadBack.atom {v w : Value} {cs : List Char} {t : Token} {e : Expr}
    (printable : t.Printable) (spelled : t.Spelling cs) (atom : Atom t e)
    (datum : e.datum = .ok w) (same : w.same v = true) : v.ReadBack cs :=
  .intro (List.forall_mem_singleton.mpr printable) (.token spelled) (.atom atom) datum same

/-- An integer is read back from its text, as floating point if the text is short. -/
theorem readBack_toString {v : Value} {n : Int} (small : n.natAbs < tenPow 308)
    (integer : v.IsInteger n) : v.ReadBack (toString n).toList := by
  have literal := IntegerLiteral.toString n
  have within : n.natAbs < Binary64.rangeEnd := Nat.lt_of_lt_of_le small (by decide +kernel)
  have spelled : Token.Spelling ⟨.number, toString n⟩ (toString n).toList := .plain ⟨nofun, nofun⟩
  have few : IntegerText.digitCount (toString n) ≤ IntegerText.maxDigits :=
    Nat.le_trans (IntegerLiteral.digitCount_toString (by decide) small) (by decide)
  obtain ⟨e, w, atom, datum, exact, -, -⟩ := literal.atom within few
  exact .atom (.number literal.grammatical) spelled atom datum (exact.same integer)

theorem spelling_escapeChar (c : Char) : CharSpelling c (escapeChar c) := by
  rw [escapeChar.eq_def]
  split
  · exact .backslash
  · exact .quote
  · exact .newline
  · rename_i noBackslash noQuote noNewline
    exact .raw ⟨noQuote, noBackslash⟩

theorem spelling_escaped (cs : List Char) : StringSpelling cs (cs.flatMap escapeChar) := by
  induction cs with
  | nil => exact .nil
  | cons c rest ih => exact .cons (spelling_escapeChar c) ih

/-- Only a symbol equals a symbol. -/
theorem eq_symbol_of_same {v : Value} {name : String} (equal : (symbol name).same v = true) :
    v = symbol name := by
  cases v with
  | symbol other =>
    rw [eq_of_beq equal]
  | _ => cases equal

theorem readBackAll_of_forall : ∀ vs : List Value, (∀ v ∈ vs, v.ReadBack v.written.toList) →
    ReadBackAll vs (String.intercalate " " (writtenAll vs)).toList
  | [], _ => .intro (fun _ member => absurd member List.not_mem_nil) .nil .nil rfl rfl
  | [v], each => by
    have chars : (String.intercalate " " (writtenAll [v])).toList = v.written.toList := by
      rw [writtenAll, writtenAll, String.intercalate_singleton]
    rw [chars]
    obtain ⟨printable, piece, derives, datum, same⟩ := each v List.mem_cons_self
    exact .intro printable piece derives.alone (Expr.datumAll_cons datum [])
      (sameAll_cons.mpr ⟨same, rfl⟩)
  | v :: next :: rest, each => by
    have chars : (String.intercalate " " (writtenAll (v :: next :: rest))).toList =
        v.written.toList ++ ' ' :: (String.intercalate " " (writtenAll (next :: rest))).toList := by
      simp only [writtenAll, String.intercalate_cons_cons, String.toList_append, List.append_assoc]
      rfl
    rw [chars]
    obtain ⟨first, later⟩ := List.forall_mem_cons.mp each
    obtain ⟨printable, piece, derives, datum, same⟩ := first
    obtain ⟨printable', piece', derives', datum', same'⟩ :=
      readBackAll_of_forall (next :: rest) later
    refine .intro (List.forall_mem_append.mpr ⟨printable, printable'⟩) (piece.spaced piece')
      (.cons derives derives') ?_ (sameAll_cons.mpr ⟨same, same'⟩)
    rw [Expr.datumAll_cons datum, datum']
    rfl

/-- A list is no declaration, since its first element is read back too. -/
theorem ReadBackAll.list {vs : List Value} {cs : List Char}
    (plain : ∀ head ∈ ["module", "import", "load", "require"], vs.head? ≠ some (.symbol head))
    (elements : ReadBackAll vs cs) : (Value.list vs).ReadBack ('(' :: cs ++ [')']) := by
  obtain ⟨printable, piece, derives, datum, same⟩ := elements
  rename_i ws ts es
  have enclosed : ∀ t ∈ Token.mk .openParen "(" :: ts ++ [⟨.closeParen, ")"⟩], t.Printable := by
    simp only [List.cons_append, List.forall_mem_cons, List.forall_mem_append]
    exact ⟨.openParen, printable, .closeParen, nofun⟩
  have noDeclaration : Denotes es (.list es) := by
    refine .list fun head known first => ?_
    obtain ⟨rest, rfl⟩ := List.head?_eq_some_iff.mp first
    rw [Expr.datumAll_cons rfl] at datum
    obtain ⟨others, -, rfl⟩ := map_eq_ok datum
    cases vs with
    | nil => cases same
    | cons v rest =>
      obtain ⟨equal, -⟩ := sameAll_cons.mp same
      exact plain head known (congrArg some (eq_symbol_of_same equal))
  have quoted : Expr.datum (.list es) = .ok (.list ws) := by
    rw [Expr.datum, datum]
    rfl
  exact .intro enclosed piece.enclosed (.parenthesis "(" ")" derives noDeclaration) quoted same

theorem Legible.readBack {v : Value} (legible : v.Legible) : v.ReadBack v.written.toList := by
  induction legible with
  | string text =>
    have written : (Value.string text).written.toList =
        '"' :: (text.toList.flatMap escapeChar ++ ['"']) := by
      rw [Value.written, quotedString, String.toList_ofList]
      rfl
    rw [written]
    exact .atom (.string text) (.string (spelling_escaped text.toList)) (.string text) rfl
      (beq_self_eq_true text)
  | boolean b =>
    cases b with
    | true => exact .atom .yes (.plain ⟨nofun, nofun⟩) .yes rfl rfl
    | false => exact .atom .no (.plain ⟨nofun, nofun⟩) .no rfl rfl
  | @keyword name word classified =>
    have printable := Token.ofAtom_printable word
    rw [classified] at printable
    have written : (Value.keyword name).written.toList = ':' :: name.toList := by
      rw [Value.written, String.toList_append]
      rfl
    rw [written]
    exact .atom printable (.keyword name) (.keyword name) rfl (beq_self_eq_true name)
  | @symbol name word classified =>
    have printable := Token.ofAtom_printable word
    rw [classified] at printable
    exact .atom printable (.plain ⟨nofun, nofun⟩) (.symbol name) rfl (beq_self_eq_true name)
  | bigNumber small => exact readBack_toString small (isInteger_bigNumber _)
  | @number x n integral small =>
    have written : (Value.number x).written = toString n := by
      rw [Value.written, Binary64.display, integral]
      exact if_pos small
    rw [written]
    have limit : tenPow 16 ≤ tenPow 308 := tenPow_le_tenPow (by decide)
    exact readBack_toString (Nat.lt_of_lt_of_le small limit)
      (isInteger_number (Binary64.units?_of_toInt? integral))
  | @list elements _ plain ih =>
    have written : (Value.list elements).written.toList =
        '(' :: (String.intercalate " " (writtenAll elements)).toList ++ [')'] := by
      rw [Value.written, String.toList_append, String.toList_append]
      rfl
    rw [written]
    exact (readBackAll_of_forall elements ih).list plain

/-- Reading the written form of a legible datum succeeds, and quoting what was read gives an equal
datum. -/
theorem written_data_are_read_back {v : Value} (legible : v.Legible) :
    ∃ e w, Expr.read v.written = .ok e ∧ e.datum = .ok w ∧ w.same v = true := by
  obtain ⟨printable, piece, derives, datum, same⟩ := legible.readBack
  exact ⟨_, _, Expr.read_of_piece piece printable derives, datum, same⟩

/-- Among others a negative zero, a floating-point number that comes back as an integer, an integer
that comes back as floating point and one that has none, and `module` where it announces nothing. -/
theorem written_data_are_read_back_of_nested_list :
    let v : Value := .list [.list [], .string "\\n\n;\"", .number (.zero true),
      .number (.ofInt (-1000000000000000)), .bigNumber 7, .bigNumber (-9007199254740993),
      .list [.boolean true, .keyword "a:1", .symbol "+1x", .symbol "module"]]
    let text := "(() \"\\\\n\\n;\\\"\" 0 -1000000000000000 7 -9007199254740993 " ++
      "(true :a:1 +1x module))"
    v.Legible ∧ v.written = text ∧
      ∃ e w, Expr.read v.written = .ok e ∧ e.datum = .ok w ∧ w.same v = true := by
  intro v text
  have legible : v.Legible := by
    have zero : (Binary64.zero true).toInt? = some 0 := by decide +kernel
    have integral : (Binary64.ofInt (-1000000000000000)).toInt? = some (-1000000000000000) := by
      decide +kernel
    have inner : ∀ u ∈ [Value.boolean true, .keyword "a:1", .symbol "+1x", .symbol "module"],
        u.Legible := by
      simp only [List.forall_mem_cons]
      exact ⟨.boolean true, .keyword (by decide) (by decide), .symbol (by decide) (by decide),
        .symbol (by decide) (by decide), nofun⟩
    refine .list ?_ nofun
    simp only [List.forall_mem_cons]
    exact ⟨.list nofun nofun, .string _, .number zero (by decide), .number integral (by decide),
      .bigNumber (by decide +kernel), .bigNumber (by decide +kernel), .list inner nofun, nofun⟩
  exact ⟨legible, by decide +kernel, written_data_are_read_back legible⟩

end Value

end ModularLisp
