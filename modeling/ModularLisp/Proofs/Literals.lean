import Mathlib.Data.List.Basic
import Mathlib.Data.List.TakeDrop
import Mathlib.Data.List.TakeWhile
import ModularLisp.Number.Literal

/-!
# The grammar of number literals

    literal  ::= sign? mantissa exponent?
    sign     ::= "+" | "-"
    mantissa ::= digit+ | digit+ "." digit* | "." digit+
    exponent ::= ("e" | "E") sign? digit+

A text reads as a literal exactly if this grammar derives it. Without a point and an exponent mark
it is a sign and digits, and these denote an integer; the written form of every integer is such a
literal and denotes it.
-/

namespace ModularLisp

namespace Text

/-- The digits of all scripts keep away from the blanks. -/
theorem isBlank_of_isDigit {c : Char} (digit : isDigit c = true) : isBlank c = false := by
  obtain ⟨d, hd⟩ := Option.isSome_iff_exists.mp digit
  simp only [digitValue?, Option.map_eq_some_iff] at hd
  obtain ⟨first, found, -⟩ := hd
  have range := List.find?_some found
  simp only [Bool.and_eq_true, decide_eq_true_eq] at range
  have apart : ∀ z ∈ digitZeros, (0x20 < z ∧ z + 10 ≤ 0x85) ∨
      (0xa0 < z ∧ z + 10 ≤ 0x1680) ∨ (0x1680 < z ∧ z + 10 ≤ 0x2000) ∨ 0x3000 < z := by decide
  have known := apart first (List.mem_of_find?_eq_some found)
  rw [Bool.eq_false_iff]
  simp only [isBlank, ne_eq, Bool.or_eq_true, Bool.and_eq_true, decide_eq_true_eq, beq_iff_eq]
  omega

theorem isPadding_of_isDigit {c : Char} (digit : isDigit c = true) : isPadding c = false := by
  rw [isPadding, isBlank_of_isDigit digit, Bool.false_and]

end Text

namespace NumberLiteral

open Text

inductive Sign : List Char → Prop
  | none : Sign []
  | plus : Sign ['+']
  | minus : Sign ['-']

/-- Digits of any script, or nothing. -/
def Digits (cs : List Char) : Prop := ∀ c ∈ cs, isDigit c = true

theorem digits_nil : Digits [] := fun _ member => nomatch member

inductive Mantissa : List Char → Prop
  | whole {ds : List Char} (digits : Digits ds) (nonempty : ds ≠ []) : Mantissa ds
  | pointed {ds fs : List Char} (digits : Digits ds) (nonempty : ds ≠ []) (fraction : Digits fs) :
    Mantissa (ds ++ '.' :: fs)
  | fraction {fs : List Char} (digits : Digits fs) (nonempty : fs ≠ []) : Mantissa ('.' :: fs)

inductive Exponent : List Char → Prop
  | none : Exponent []
  | marked {mark : Char} {sign ds : List Char} (mark_eq : mark = 'e' ∨ mark = 'E')
    (signed : Sign sign) (digits : Digits ds) (nonempty : ds ≠ []) :
    Exponent (mark :: (sign ++ ds))

inductive Literal : List Char → Prop
  | intro {sign mantissa exponent : List Char} (signed : Sign sign) (some : Mantissa mantissa)
    (scaled : Exponent exponent) : Literal (sign ++ (mantissa ++ exponent))

theorem ne_of_isDigit {c d : Char} (digit : isDigit c = true) (other : isDigit d = false) :
    c ≠ d := by
  rintro rfl
  rw [digit] at other
  cases other

theorem readSign_append {sign body : List Char} (signed : Sign sign)
    (unsigned : ∀ c ∈ body.head?, c ≠ '-' ∧ c ≠ '+') :
    readSign (sign ++ body) = (decide (sign = ['-']), body) := by
  cases signed with
  | plus | minus => rfl
  | none =>
    rw [List.nil_append, readSign.eq_def]
    split
    · exact absurd rfl (unsigned '-' rfl).1
    · exact absurd rfl (unsigned '+' rfl).2
    · rfl

theorem exists_sign (cs : List Char) : ∃ sign, Sign sign ∧ cs = sign ++ (readSign cs).2 := by
  rw [readSign.eq_def]
  split
  · exact ⟨['-'], .minus, rfl⟩
  · exact ⟨['+'], .plus, rfl⟩
  · exact ⟨[], .none, rfl⟩

theorem readSign_digits {sign ds : List Char} (signed : Sign sign) (digits : Digits ds) :
    readSign (sign ++ ds) = (decide (sign = ['-']), ds) := by
  refine readSign_append signed fun c first => ?_
  have digit := digits c (List.mem_of_head? first)
  exact ⟨ne_of_isDigit digit (by decide), ne_of_isDigit digit (by decide)⟩

theorem span_digits {ds rest : List Char} (digits : Digits ds)
    (ends : ∀ c ∈ rest.head?, isDigit c = false) : (ds ++ rest).span isDigit = (ds, rest) := by
  rw [List.span_eq_takeWhile_dropWhile, List.takeWhile_append_of_pos digits,
    List.dropWhile_append_of_pos digits]
  cases rest with
  | nil => simp
  | cons c rest => simp [ends c rfl]

theorem digits_takeWhile (cs : List Char) : Digits (cs.takeWhile isDigit) :=
  fun _ member => List.mem_takeWhile_imp member

theorem readExponent?_isSome_iff (cs : List Char) : (readExponent? cs).isSome ↔ Exponent cs := by
  constructor
  · intro read
    cases cs with
    | nil => exact .none
    | cons mark rest =>
      obtain ⟨sign, signed, split⟩ := exists_sign rest
      simp only [readExponent?] at read
      split_ifs at read with ok
      · simp only [Bool.and_eq_true, Bool.or_eq_true, beq_iff_eq, Bool.not_eq_true',
          List.isEmpty_eq_false_iff, List.all_eq_true] at ok
        rw [split]
        exact .marked ok.1.1 signed ok.2 ok.1.2
      · cases read
  · rintro (_ | ⟨marked, signed, digits, nonempty⟩)
    · rfl
    · have all : ∀ ds : List Char, Digits ds → ds.all isDigit = true :=
        fun ds digits => List.all_eq_true.mpr digits
      rcases marked with rfl | rfl <;>
        simp [readExponent?, readSign_digits signed digits, nonempty, all _ digits]

theorem exponent_head {cs : List Char} (scaled : Exponent cs) :
    ∀ c ∈ cs.head?, isDigit c = false ∧ c ≠ '.' := by
  intro c first
  cases scaled with
  | none => cases first
  | marked marked =>
    cases first
    rcases marked with rfl | rfl <;> decide

/-- Reading finds the parts again. The tail is the point with the fraction, if there is one. -/
theorem read?_parts {sign whole fraction tail exponent : List Char} (signed : Sign sign)
    (digits : Digits whole) (decimals : Digits fraction)
    (pointed : tail = [] ∧ fraction = [] ∨ tail = '.' :: fraction)
    (some : whole ≠ [] ∨ fraction ≠ []) (scaled : Exponent exponent) :
    read? (sign ++ (whole ++ (tail ++ exponent))) =
      (readExponent? exponent).map (⟨decide (sign = ['-']), whole, fraction, ·⟩) := by
  have head := exponent_head scaled
  have ends : ∀ c ∈ (tail ++ exponent).head?, isDigit c = false := by
    intro c first
    rcases pointed with ⟨rfl, -⟩ | rfl
    · exact (head c first).1
    · cases first
      decide
  have unsigned : ∀ c ∈ (whole ++ (tail ++ exponent)).head?, c ≠ '-' ∧ c ≠ '+' := by
    intro c first
    cases whole with
    | cons d whole =>
      cases first
      have digit := digits _ List.mem_cons_self
      exact ⟨ne_of_isDigit digit (by decide), ne_of_isDigit digit (by decide)⟩
    | nil =>
      rcases pointed with ⟨-, rfl⟩ | rfl
      · exact absurd rfl (some.resolve_left fun absent => absent rfl)
      · cases first
        decide
  have fractionRead : readFraction (tail ++ exponent) = (fraction, exponent) := by
    rcases pointed with ⟨rfl, rfl⟩ | rfl
    · rw [List.nil_append, readFraction.eq_def]
      split
      · exact absurd rfl (head '.' rfl).2
      · rfl
    · exact span_digits decimals fun c first => (head c first).1
  have present : (whole.isEmpty && fraction.isEmpty) = false := by
    rcases some with some | some <;> simp [some]
  simp only [read?, readSign_append signed unsigned, span_digits digits ends, fractionRead, present,
    Bool.false_eq_true, if_false]

theorem read?_isSome_iff (cs : List Char) : (read? cs).isSome ↔ Literal cs := by
  constructor
  · intro read
    obtain ⟨sign, signed, split⟩ := exists_sign cs
    simp only [read?, List.span_eq_takeWhile_dropWhile] at read
    generalize (readSign cs).2 = body at read split
    have digits := digits_takeWhile body
    have whole := List.takeWhile_append_dropWhile (p := isDigit) (l := body)
    generalize body.takeWhile isDigit = ds, body.dropWhile isDigit = rest at read digits whole
    rw [split, ← whole]
    rw [readFraction.eq_def] at read
    split at read
    · rename_i more
      rw [List.span_eq_takeWhile_dropWhile] at read
      have decimals := digits_takeWhile more
      have after := List.takeWhile_append_dropWhile (p := isDigit) (l := more)
      generalize more.takeWhile isDigit = fs, more.dropWhile isDigit = exponent
        at read decimals after
      dsimp only at read
      split_ifs at read with none
      · cases read
      · have scaled := (readExponent?_isSome_iff exponent).mp (by simpa using read)
        rw [← after]
        by_cases empty : ds = []
        · subst empty
          have mantissa := Mantissa.fraction decimals (by simpa using none)
          have literal := Literal.intro signed mantissa scaled
          exact literal
        · have mantissa := Mantissa.pointed digits empty decimals
          have literal := Literal.intro signed mantissa scaled
          rwa [List.append_assoc] at literal
    · dsimp only at read
      split_ifs at read with none
      · cases read
      · have scaled := (readExponent?_isSome_iff rest).mp (by simpa using read)
        exact .intro signed (.whole digits (by simpa using none)) scaled
  · rintro ⟨signed, mantissa, scaled⟩
    have exponent := (readExponent?_isSome_iff _).mpr scaled
    cases mantissa with
    | whole digits nonempty =>
      have read := read?_parts signed digits digits_nil (.inl ⟨rfl, rfl⟩) (.inl nonempty) scaled
      rw [List.nil_append] at read
      rwa [read, Option.isSome_map]
    | pointed digits nonempty decimals =>
      have read := read?_parts signed digits decimals (.inr rfl) (.inl nonempty) scaled
      rwa [List.append_assoc, read, Option.isSome_map]
    | fraction decimals nonempty =>
      have read := read?_parts signed digits_nil decimals (.inr rfl) (.inr nonempty) scaled
      rw [List.nil_append] at read
      rwa [read, Option.isSome_map]

/-- The characters that literals are made of. -/
theorem mem_literal {cs : List Char} (literal : Literal cs) :
    ∀ c ∈ cs, isDigit c = true ∨ c ∈ ['+', '-', '.', 'e', 'E'] := by
  have ofSign : ∀ {sign : List Char}, Sign sign → ∀ c ∈ sign, c ∈ ['+', '-', '.', 'e', 'E'] := by
    rintro _ (_ | _ | _) <;> simp
  obtain ⟨signed, mantissa, scaled⟩ := literal
  intro c member
  rcases List.mem_append.mp member with member | member
  · exact .inr (ofSign signed c member)
  · rcases List.mem_append.mp member with member | member
    · cases mantissa with
      | whole digits => exact .inl (digits c member)
      | pointed digits _ decimals =>
        rcases List.mem_append.mp member with member | member
        · exact .inl (digits c member)
        · rcases List.mem_cons.mp member with rfl | member
          · exact .inr (by decide)
          · exact .inl (decimals c member)
      | fraction decimals =>
        rcases List.mem_cons.mp member with rfl | member
        · exact .inr (by decide)
        · exact .inl (decimals c member)
    · cases scaled with
      | none => cases member
      | marked marked signed digits =>
        rcases List.mem_cons.mp member with rfl | member
        · rcases marked with rfl | rfl <;> exact .inr (by decide)
        · rcases List.mem_append.mp member with member | member
          · exact .inr (ofSign signed c member)
          · exact .inl (digits c member)

/-- Without a point and an exponent mark a literal is a sign and digits. -/
theorem integral_of_literal {cs : List Char} (literal : Literal cs)
    (plain : ∀ c ∈ cs, c ≠ '.' ∧ c ≠ 'e' ∧ c ≠ 'E') :
    ∃ sign ds, Sign sign ∧ Digits ds ∧ ds ≠ [] ∧ cs = sign ++ ds := by
  obtain ⟨sign_ok, mantissa, scaled⟩ := literal
  cases scaled with
  | marked marked =>
    have here := plain _ (List.mem_append_right _ (List.mem_append_right _ List.mem_cons_self))
    rcases marked with rfl | rfl
    · exact absurd rfl here.2.1
    · exact absurd rfl here.2.2
  | none =>
    rw [List.append_nil] at plain ⊢
    cases mantissa with
    | whole digits nonempty => exact ⟨_, _, sign_ok, digits, nonempty, rfl⟩
    | pointed =>
      have here := plain '.' (List.mem_append_right _ (List.mem_append_right _ List.mem_cons_self))
      exact absurd rfl here.1
    | fraction =>
      have here := plain '.' (List.mem_append_right _ List.mem_cons_self)
      exact absurd rfl here.1

theorem integerDigits {ds : List Char} (digits : Digits ds) (nonempty : ds ≠ []) :
    IntegerText.digits? false ds = some ds := by
  cases ds with
  | nil => exact absurd rfl nonempty
  | cons c rest =>
    obtain ⟨first, later⟩ := List.forall_mem_cons.mp digits
    simp only [IntegerText.digits?, first, if_true, IntegerText.digits?_of_all later,
      Option.map_some]

section Spelled

variable {text : String} {sign ds : List Char} (sign_ok : Sign sign) (digits : Digits ds)
  (spelled : text.toList = sign ++ ds)

include sign_ok digits spelled

theorem trim_digits : trim isPadding text.toList = sign ++ ds := by
  have unpadded : ∀ c ∈ text.toList, isPadding c = false := by
    intro c member
    rw [spelled] at member
    rcases List.mem_append.mp member with member | member
    · rcases sign_ok with _ | _ | _ <;> simp at member <;> subst member <;> decide
    · exact isPadding_of_isDigit (digits c member)
  exact (trim_of_none unpadded).trans spelled

theorem integerText?_digits (nonempty : ds ≠ []) :
    integerText? text = some (signed (decide (sign = ['-'])) (ofDigits ds)) := by
  simp only [integerText?, trim_digits sign_ok digits spelled, readSign_digits sign_ok digits,
    integerDigits digits nonempty, Option.map_some]

theorem digitCount_digits (nonempty : ds ≠ []) : IntegerText.digitCount text = ds.length := by
  have run : ds.takeWhile (fun c => isDigit c || c == '_') = ds :=
    List.takeWhile_eq_self_iff.mpr fun c member => by rw [digits c member, Bool.true_or]
  simp only [IntegerText.digitCount, trim_digits sign_ok digits spelled,
    readSign_digits sign_ok digits, run, integerDigits digits nonempty, Option.map_some,
    Option.getD_some]

end Spelled

theorem digits_replicate (count : Nat) : Digits (List.replicate count '0') := by
  intro c member
  rw [(List.mem_replicate.mp member).2]
  decide

theorem ofDigits_replicate (count : Nat) : ofDigits (List.replicate count '0') = 0 := by
  induction count with
  | zero => rfl
  | succ count ih => exact ih

theorem digitValue?_of_ascii {c : Char} (digit : c.isDigit = true) :
    digitValue? c = some (c.toNat - '0'.toNat) := by
  simp only [Char.isDigit, Bool.and_eq_true, decide_eq_true_eq] at digit
  have range : 0x30 ≤ c.toNat ∧ c.toNat < 0x30 + 10 := by
    have lower : 48 ≤ c.val.toNat := digit.1
    have upper : c.val.toNat ≤ 57 := digit.2
    exact ⟨lower, Nat.lt_succ_of_le upper⟩
  rw [digitValue?, digitZeros, List.find?_cons_of_pos]
  · rfl
  · simp [range]

theorem isDigit_of_ascii {c : Char} (digit : c.isDigit = true) : isDigit c = true := by
  rw [isDigit, digitValue?_of_ascii digit]
  rfl

theorem digits_toDigits (n : Nat) : Digits (Nat.toDigits 10 n) := fun _ member =>
  isDigit_of_ascii (Nat.isDigit_of_mem_toDigits (by decide) (by decide) member)

theorem ofDigits_toDigits (n : Nat) : ofDigits (Nat.toDigits 10 n) = n := by
  have ascii : ofDigits (Nat.toDigits 10 n) = Nat.ofDigitChars 10 (Nat.toDigits 10 n) 0 := by
    refine List.foldl_ext _ _ 0 fun size c member => ?_
    have digit := Nat.isDigit_of_mem_toDigits (by decide) (by decide) member
    rw [digitValue, digitValue?_of_ascii digit]
    rfl
  rw [ascii, Nat.ofDigitChars_toDigits (by decide) (by decide)]

/-- The written form of an integer is a sign and digits. -/
theorem toList_toString (n : Int) : ∃ sign, Sign sign ∧ decide (sign = ['-']) = decide (n < 0) ∧
    (toString n).toList = sign ++ Nat.toDigits 10 n.natAbs := by
  cases n with
  | ofNat m =>
    refine ⟨[], .none, by simp, ?_⟩
    change m.repr.toList = _
    rw [Nat.repr_eq_ofList_toDigits, String.toList_ofList]
    rfl
  | negSucc m =>
    refine ⟨['-'], .minus, by simp [Int.negSucc_lt_zero], ?_⟩
    change ("-" ++ (m + 1).repr).toList = _
    simp only [String.toList_append, Nat.repr_eq_ofList_toDigits, String.toList_ofList]
    rfl

theorem signed_natAbs (n : Int) : signed (decide (n < 0)) n.natAbs = n := by
  simp only [signed, decide_eq_true_eq]
  split <;> omega

/-- Every character counts, the sign too. -/
theorem isLongIntegerText_iff {text : String} :
    isLongIntegerText text = true ↔
      (∀ c ∈ text.toList, c ≠ '.' ∧ c ≠ 'e' ∧ c ≠ 'E') ∧ 15 < text.toList.length := by
  simp only [isLongIntegerText, Bool.and_eq_true, Bool.not_eq_true', List.any_eq_false,
    Bool.or_eq_true, beq_iff_eq, not_or, and_assoc, decide_eq_true_eq, ne_eq]

theorem isLongIntegerText_digits {text : String} {sign ds : List Char} (sign_ok : Sign sign)
    (digits : Digits ds) (spelled : text.toList = sign ++ ds) :
    isLongIntegerText text = decide (15 < sign.length + ds.length) := by
  rw [Bool.eq_iff_iff, isLongIntegerText_iff, decide_eq_true_iff, spelled, List.length_append]
  refine and_iff_right fun c member => ?_
  rcases List.mem_append.mp member with member | member
  · rcases sign_ok with _ | _ | _ <;> simp at member <;> subst member <;> decide
  · have ne : ∀ d, isDigit d = false → c ≠ d := fun d => ne_of_isDigit (digits c member)
    exact ⟨ne '.' (by decide), ne 'e' (by decide), ne 'E' (by decide)⟩

end NumberLiteral

end ModularLisp
