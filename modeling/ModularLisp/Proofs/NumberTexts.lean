import Mathlib
import ModularLisp.Proofs.IntegerLiterals

/-!
# Number texts

    [+-]?(\d+\.?\d*|\.\d+)([eE][+-]?\d+)?

The pattern of literals can match the same digits in several ways. The texts that it matches in any
way are the literals of the grammar, and these are the words that become number tokens. The other
number texts are three names in any letter case. No name is long, so a long number text without a
point and an exponent mark is a sign and digits, which can be converted if they are not too many.
-/

namespace ModularLisp

open NumberLiteral Text

namespace NumberLiteral

namespace Pattern

open scoped Computability

def oneOf (kind : Char → Prop) : Language Char := {cs | ∃ c, kind c ∧ cs = [c]}

def optional (part : Language Char) : Language Char := 1 + part

def digit : Language Char := oneOf fun c => isDigit c = true

def digits : Language Char := digit * digit∗

def point : Language Char := oneOf fun c => c = '.'

def sign : Language Char := optional (oneOf fun c => c = '+' ∨ c = '-')

def mantissa : Language Char := digits * optional point * digit∗ + point * digits

def exponent : Language Char :=
  optional (oneOf (fun c => c = 'e' ∨ c = 'E') * sign * digits)

def literal : Language Char := sign * mantissa * exponent

variable {cs : List Char}

theorem mem_oneOf {kind : Char → Prop} : cs ∈ oneOf kind ↔ ∃ c, kind c ∧ cs = [c] := Iff.rfl

theorem mem_optional {part : Language Char} : cs ∈ optional part ↔ cs = [] ∨ cs ∈ part := Iff.rfl

theorem mem_point : cs ∈ point ↔ cs = ['.'] := by
  rw [point, mem_oneOf, exists_eq_left]

theorem mem_star_digit : cs ∈ digit∗ ↔ Digits cs := by
  constructor
  · rintro ⟨parts, rfl, single⟩ c member
    obtain ⟨part, known, inside⟩ := List.mem_flatten.mp member
    obtain ⟨d, is, rfl⟩ := single part known
    rwa [List.mem_singleton.mp inside]
  · intro all
    have joined : (cs.map fun c => [c]).flatten = cs := by
      rw [← List.flatMap_def, List.flatMap_singleton']
    rw [← joined]
    refine Language.join_mem_kstar fun part known => ?_
    obtain ⟨c, member, rfl⟩ := List.mem_map.mp known
    exact ⟨c, all c member, rfl⟩

theorem mem_digits : cs ∈ digits ↔ Digits cs ∧ cs ≠ [] := by
  simp only [digits, Language.mem_mul, mem_star_digit]
  constructor
  · rintro ⟨_, ⟨c, first, rfl⟩, later, all, rfl⟩
    exact ⟨List.forall_mem_cons.mpr ⟨first, all⟩, List.cons_ne_nil _ _⟩
  · rintro ⟨all, nonempty⟩
    obtain ⟨c, later, rfl⟩ := List.exists_cons_of_ne_nil nonempty
    obtain ⟨first, all⟩ := List.forall_mem_cons.mp all
    exact ⟨[c], ⟨c, first, rfl⟩, later, all, rfl⟩

theorem mem_sign : cs ∈ sign ↔ Sign cs := by
  constructor
  · rintro (rfl | ⟨_, rfl | rfl, rfl⟩)
    · exact .none
    · exact .plus
    · exact .minus
  · rintro (_ | _ | _)
    · exact .inl rfl
    · exact .inr ⟨'+', .inl rfl, rfl⟩
    · exact .inr ⟨'-', .inr rfl, rfl⟩

/-- Without a point both runs of digits together are one. -/
theorem mem_mantissa : cs ∈ mantissa ↔ Mantissa cs := by
  simp only [mantissa, Language.mem_add, Language.mem_mul, mem_optional, mem_point, mem_digits,
    mem_star_digit]
  constructor
  · rintro (⟨_, ⟨ds, ⟨all, nonempty⟩, _, rfl | rfl, rfl⟩, more, rest, rfl⟩ |
      ⟨_, rfl, fs, ⟨all, nonempty⟩, rfl⟩)
    · rw [List.append_nil]
      refine .whole (fun c member => ?_) (List.append_ne_nil_of_left_ne_nil nonempty _)
      exact (List.mem_append.mp member).elim (all c) (rest c)
    · rw [List.append_assoc]
      exact .pointed all nonempty rest
    · exact .fraction all nonempty
  · rintro (⟨all, nonempty⟩ | ⟨all, nonempty, rest⟩ | ⟨all, nonempty⟩)
    · refine .inl ⟨_, ⟨_, ⟨all, nonempty⟩, [], .inl rfl, rfl⟩, [], digits_nil, ?_⟩
      rw [List.append_nil, List.append_nil]
    · refine .inl ⟨_, ⟨_, ⟨all, nonempty⟩, ['.'], .inr rfl, rfl⟩, _, rest, ?_⟩
      rw [List.append_assoc, List.singleton_append]
    · exact .inr ⟨['.'], rfl, _, ⟨all, nonempty⟩, rfl⟩

theorem mem_exponent : cs ∈ exponent ↔ Exponent cs := by
  simp only [exponent, mem_optional, Language.mem_mul, mem_oneOf, mem_sign, mem_digits]
  constructor
  · rintro (rfl | ⟨_, ⟨_, ⟨mark, known, rfl⟩, sign, signed, rfl⟩, ds, ⟨all, nonempty⟩, rfl⟩)
    · exact .none
    · exact .marked known signed all nonempty
  · rintro (_ | ⟨known, signed, all, nonempty⟩)
    · exact .inl rfl
    · exact .inr ⟨_, ⟨_, ⟨_, known, rfl⟩, _, signed, rfl⟩, _, ⟨all, nonempty⟩, rfl⟩

theorem mem_literal_iff : cs ∈ literal ↔ Literal cs := by
  simp only [literal, Language.mem_mul, mem_sign, mem_mantissa, mem_exponent]
  constructor
  · rintro ⟨_, ⟨sign, signed, mantissa, some, rfl⟩, exponent, scaled, rfl⟩
    rw [List.append_assoc]
    exact .intro signed some scaled
  · rintro ⟨signed, some, scaled⟩
    exact ⟨_, ⟨_, signed, _, some, rfl⟩, _, scaled, List.append_assoc _ _ _⟩

end Pattern

end NumberLiteral

namespace NumberText

def specialNames : List String := ["inf", "infinity", "nan"]

/-- Each character is the letter that stands in its place, or its capital. -/
def InAnyCase (name cs : List Char) : Prop :=
  List.Forall₂ (fun letter c => c = letter ∨ c = letter.toUpper) name cs

inductive SpecialName : List Char → Prop
  | intro {sign cs : List Char} {name : String} (signed : Sign sign) (known : name ∈ specialNames)
    (spelled : InAnyCase name.toList cs) : SpecialName (sign ++ cs)

theorem toLower_eq_iff {letter c : Char} (small : letter.isLower = true) :
    c.toLower = letter ↔ c = letter ∨ c = letter.toUpper := by
  have kept : letter.toLower = letter :=
    Char.toLower_eq_of_not_isUpper (Char.not_isUpper_of_isLower small)
  constructor
  · intro same
    by_cases capital : c.isUpper = true
    · right
      have large := Char.toUpper_eq_of_not_isLower (Char.not_isLower_of_isUpper capital)
      calc c = c.toUpper := large.symm
        _ = c.toLower.toUpper := (Char.toUpper_toLower_eq_toUpper c).symm
        _ = letter.toUpper := by rw [same]
    · left
      rwa [Char.toLower_eq_of_not_isUpper capital] at same
  · rintro (rfl | rfl)
    · exact kept
    · rw [Char.toLower_toUpper_eq_toLower, kept]

theorem map_toLower_eq_iff {name cs : List Char} (small : ∀ letter ∈ name, letter.isLower = true) :
    cs.map Char.toLower = name ↔ InAnyCase name cs := by
  induction name generalizing cs with
  | nil => rw [List.map_eq_nil_iff, InAnyCase, List.forall₂_nil_left_iff]
  | cons letter rest ih =>
    obtain ⟨first, later⟩ := List.forall_mem_cons.mp small
    cases cs with
    | nil => exact iff_of_false nofun nofun
    | cons c cs =>
      rw [List.map_cons, List.cons.injEq, toLower_eq_iff first, ih later, InAnyCase, InAnyCase,
        List.forall₂_cons]

theorem isLower_of_mem_specialNames {name : String} (known : name ∈ specialNames) :
    ∀ letter ∈ name.toList, letter.isLower = true := by
  have letters : specialNames.all (fun name => name.toList.all Char.isLower) = true := by decide
  exact List.all_eq_true.mp (List.all_eq_true.mp letters name known)

theorem special?_isSome_iff (negative : Bool) (body : List Char) :
    (special? negative body).isSome ↔ ∃ name ∈ specialNames, InAnyCase name.toList body := by
  have named : (special? negative body).isSome ↔
      String.ofList (body.map Char.toLower) ∈ specialNames := by
    simp only [special?, specialNames, List.mem_cons, List.not_mem_nil, or_false]
    rw [← or_assoc]
    split_ifs with infinite undefined
    · exact iff_of_true rfl (.inl infinite)
    · exact iff_of_true rfl (.inr undefined)
    · exact iff_of_false Bool.false_ne_true (not_or.mpr ⟨infinite, undefined⟩)
  rw [named]
  constructor
  · intro known
    refine ⟨_, known, (map_toLower_eq_iff (isLower_of_mem_specialNames known)).mp ?_⟩
    exact String.toList_ofList.symm
  · rintro ⟨name, known, spelled⟩
    have lowered := (map_toLower_eq_iff (isLower_of_mem_specialNames known)).mpr spelled
    rwa [lowered, String.ofList_toList]

theorem readSign_special {sign cs : List Char} {name : String} (signed : Sign sign)
    (known : name ∈ specialNames) (spelled : InAnyCase name.toList cs) :
    readSign (sign ++ cs) = (decide (sign = ['-']), cs) := by
  have small := isLower_of_mem_specialNames known
  have lowered := (map_toLower_eq_iff small).mpr spelled
  refine readSign_append signed fun c first => ?_
  have letter : c.toLower.isLower = true := by
    refine small _ ?_
    rw [← lowered]
    exact List.mem_map_of_mem (List.mem_of_head? first)
  constructor <;> rintro rfl <;> exact absurd letter (by decide)

theorem SpecialName.length_le {cs : List Char} (special : SpecialName cs) : cs.length ≤ 9 := by
  obtain ⟨signed, known, spelled⟩ := special
  have short : ∀ name ∈ specialNames, name.toList.length ≤ 8 := by decide
  have mark : ∀ {sign : List Char}, Sign sign → sign.length ≤ 1 := by
    rintro _ (_ | _ | _) <;> decide
  rw [List.length_append, ← spelled.length_eq]
  exact Nat.le_trans (Nat.add_le_add (mark signed) (short _ known)) (by decide)

end NumberText

theorem Token.ofAtom_number_iff {text : String} :
    (Token.ofAtom text).kind = .number ↔ Literal text.toList := by
  rw [← isDecimalLiteral_iff, Token.ofAtom]
  split_ifs with literal boolean
  · exact iff_of_true rfl literal
  · refine iff_of_false (fun same => ?_) literal
    cases same
  · refine iff_of_false (fun same => ?_) literal
    split at same <;> cases same

theorem isNumberText_iff {text : String} :
    isNumberText text = true ↔ Literal text.toList ∨ NumberText.SpecialName text.toList := by
  rw [← isDecimalLiteral_iff, isNumberText, NumberText.read?, isDecimalLiteral]
  cases read : NumberLiteral.read? text.toList with
  | some literal => exact iff_of_true rfl (.inl rfl)
  | none =>
    rw [Option.isSome_none, or_iff_right Bool.false_ne_true, NumberText.special?_isSome_iff]
    constructor
    · rintro ⟨name, known, spelled⟩
      obtain ⟨sign, signed, split⟩ := exists_sign text.toList
      rw [split]
      exact .intro signed known spelled
    · generalize text.toList = cs
      rintro ⟨signed, known, spelled⟩
      rw [NumberText.readSign_special signed known spelled]
      exact ⟨_, known, spelled⟩

theorem IntegerLiteral.of_long {text : String} (literal : Literal text.toList)
    (long : isLongIntegerText text = true) : ∃ n, IntegerLiteral text n := by
  obtain ⟨sign, ds, sign_ok, digits, nonempty, spelled⟩ :=
    integral_of_literal literal (isLongIntegerText_iff.mp long).1
  exact ⟨_, .intro sign_ok digits nonempty spelled⟩

/-- No special name is long enough to be taken for an integer. -/
theorem isNumberText_long_iff {text : String} :
    isNumberText text = true ∧ isLongIntegerText text = true ↔
      15 < text.length ∧ ∃ n, IntegerLiteral text n := by
  constructor
  · rintro ⟨number, long⟩
    have lengthy : 15 < text.length := by
      rw [← String.length_toList]
      exact (isLongIntegerText_iff.mp long).2
    refine ⟨lengthy, ?_⟩
    rcases isNumberText_iff.mp number with literal | special
    · exact IntegerLiteral.of_long literal long
    · have short := special.length_le
      rw [String.length_toList] at short
      omega
  · rintro ⟨lengthy, n, literal⟩
    exact ⟨isNumberText_iff.mpr (.inl literal.grammatical), literal.isLong_iff.mpr lengthy⟩

/-- A word is a number exactly if the grammar derives it, and the grammar derives what the pattern
matches. The other number texts are the special names behind a sign or none. Those number texts that
are kept as exact integers are the long integer literals, and the conversion of such a text gives
the integer, or fails exactly if there are too many digits. -/
theorem number_texts_follow_grammar (text : String) :
    ((Token.ofAtom text).kind = .number ↔ Literal text.toList) ∧
    (text.toList ∈ Pattern.literal ↔ Literal text.toList) ∧
    (isNumberText text = true ↔ Literal text.toList ∨ NumberText.SpecialName text.toList) ∧
    (isNumberText text = true ∧ isLongIntegerText text = true ↔
      15 < text.length ∧ ∃ n, IntegerLiteral text n) ∧
    ∀ n, IntegerLiteral text n → integerOf text =
      if IntegerText.digitCount text ≤ IntegerText.maxDigits then .ok n
      else .error (.tooManyDigits (IntegerText.digitCount text)) := by
  refine ⟨Token.ofAtom_number_iff, Pattern.mem_literal_iff, isNumberText_iff,
    isNumberText_long_iff, fun n literal => ?_⟩
  split_ifs with few
  · exact integerOf_eq_ok_iff.mpr ⟨literal.denotes, few⟩
  · exact integerOf_of_many (Nat.not_le.mp few)

/-- A literal in digits of two scripts, a mark without a mantissa, a name in both cases, and a small
integer made long by its zeros. -/
theorem number_texts_follow_grammar_of_mixed_scripts :
    let pointed := "-\u0664.e+\uff15"
    let named := "+InFiNiTy"
    let long := "-00000000000000\u0664\u0662"
    pointed.toList ∈ Pattern.literal ∧ "+.e5".toList ∉ Pattern.literal ∧
      NumberText.SpecialName named.toList ∧ ¬ Literal named.toList ∧
      15 < long.length ∧ ∃ n, IntegerLiteral long n ∧ integerOf long = .ok n := by
  intro pointed named long
  obtain ⟨token, matched, -, -⟩ := number_texts_follow_grammar pointed
  obtain ⟨lone, unmatched, -, -⟩ := number_texts_follow_grammar "+.e5"
  obtain ⟨word, -, number, -⟩ := number_texts_follow_grammar named
  obtain ⟨-, -, -, kept, converted⟩ := number_texts_follow_grammar long
  have symbol : ¬ Literal named.toList := mt word.mpr (by decide)
  obtain ⟨lengthy, n, literal⟩ := kept.mp (by decide)
  have few : IntegerText.digitCount long ≤ IntegerText.maxDigits := by decide
  refine ⟨matched.mpr (token.mp (by decide)), fun reading => ?_, ?_, symbol, lengthy, n, literal,
    (converted n literal).trans (if_pos few)⟩
  · exact absurd (lone.mpr (unmatched.mp reading)) (by decide)
  · exact (number.mp (by decide)).resolve_left symbol

/-- Zeros of which there is one too many pass both tests and cannot be converted. -/
theorem number_text_without_conversion :
    let text := String.ofList (List.replicate 4301 '0')
    isNumberText text = true ∧ isLongIntegerText text = true ∧ ∀ n, integerOf text ≠ .ok n := by
  intro text
  have literal : IntegerLiteral text 0 := IntegerLiteral.zeros (by decide)
  have long : 15 < text.length := by
    rw [String.length_ofList, List.length_replicate]
    decide
  obtain ⟨number, kept⟩ := isNumberText_long_iff.mpr ⟨long, 0, literal⟩
  have many : IntegerText.maxDigits < 4301 := by decide
  refine ⟨number, kept, fun n converted => ?_⟩
  rw [integerOf_zeros many] at converted
  cases converted

end ModularLisp
