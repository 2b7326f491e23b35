import ModularLisp.Proofs.Literals
import ModularLisp.Syntax.Parser
import ModularLisp.Value.Datum

/-!
# The tokens of a text

The lexer makes printable tokens only, those with a spelling that stands for them: a word has at
least one character, it is a number exactly if it is a literal, and a symbol looks like no other
word. A literal long enough to keep its text denotes an integer, and it can be converted if it has
not too many digits.
-/

namespace ModularLisp

variable {α β ε ε' : Type}

theorem map_eq_ok {x : Except ε α} {f : α → β} {b : β} (h : x.map f = .ok b) :
    ∃ a, x = .ok a ∧ f a = b := by
  cases x with
  | error e => cases h
  | ok a => exact ⟨a, rfl, Except.ok.inj h⟩

theorem mapError_eq_ok {x : Except ε α} {f : ε → ε'} {a : α} (h : x.mapError f = .ok a) :
    x = .ok a := by
  cases x with
  | error e => cases h
  | ok b => exact congrArg Except.ok (Except.ok.inj h)

theorem map_eq_error {x : Except ε α} {f : α → β} {e : ε} (h : x.map f = .error e) :
    x = .error e := by
  cases x with
  | error d => exact congrArg Except.error (Except.error.inj h)
  | ok a => cases h

theorem mapError_eq_error {x : Except ε α} {f : ε → ε'} {e : ε'} (h : x.mapError f = .error e) :
    ∃ d, x = .error d ∧ f d = e := by
  cases x with
  | error d => exact ⟨d, rfl, Except.error.inj h⟩
  | ok a => cases h

theorem except_bind_eq_ok {x : Except ε α} {f : α → Except ε β} {b : β} (h : x >>= f = .ok b) :
    ∃ a, x = .ok a ∧ f a = .ok b := by
  cases x with
  | error e => cases h
  | ok a => exact ⟨a, rfl, h⟩

theorem except_bind_eq_error {x : Except ε α} {f : α → Except ε β} {e : ε}
    (h : x >>= f = .error e) : x = .error e ∨ ∃ a, x = .ok a ∧ f a = .error e := by
  cases x with
  | error _ => exact Or.inl (congrArg Except.error (Except.error.inj h))
  | ok a => exact Or.inr ⟨a, rfl, h⟩

theorem isDecimalLiteral_iff {text : String} :
    isDecimalLiteral text = true ↔ NumberLiteral.Literal text.toList :=
  NumberLiteral.read?_isSome_iff text.toList

theorem integerText?_of_long {text : String} (literal : isDecimalLiteral text = true)
    (long : isLongIntegerText text = true) : ∃ n, integerText? text = some n := by
  obtain ⟨sign, ds, sign_ok, digits, nonempty, spelled⟩ :=
    NumberLiteral.integral_of_literal (isDecimalLiteral_iff.mp literal)
      (NumberLiteral.isLongIntegerText_iff.mp long).1
  exact ⟨_, NumberLiteral.integerText?_digits sign_ok digits spelled nonempty⟩

theorem integerOf_eq_ok_iff {text : String} {n : Int} : integerOf text = .ok n ↔
    integerText? text = some n ∧ IntegerText.digitCount text ≤ IntegerText.maxDigits := by
  simp only [integerOf]
  split
  · rename_i many
    exact iff_of_false nofun fun converted => Nat.not_le.mpr many converted.2
  · rename_i few
    rw [and_iff_left (Nat.not_lt.mp few)]
    cases integerText? text <;> simp

theorem integerOf_of_many {text : String}
    (many : IntegerText.maxDigits < IntegerText.digitCount text) :
    integerOf text = .error (.tooManyDigits (IntegerText.digitCount text)) :=
  if_pos many

theorem integerOf_zeros {count : Nat} (many : IntegerText.maxDigits < count) :
    integerOf (String.ofList (List.replicate count '0')) = .error (.tooManyDigits count) := by
  have nonempty : List.replicate count '0' ≠ [] :=
    mt (List.replicate_eq_nil_iff '0').mp (Nat.ne_zero_of_lt many)
  have digits := NumberLiteral.digits_replicate count
  have counted : IntegerText.digitCount (String.ofList (List.replicate count '0')) = count :=
    (NumberLiteral.digitCount_digits .none digits String.toList_ofList nonempty).trans
      List.length_replicate
  rw [← counted] at many
  rw [integerOf_of_many many, counted]

/-- The refusal of a literal that has more digits than can be converted. -/
def Fault.IsDigitLimit : Fault → Prop
  | .tooManyDigits count => IntegerText.maxDigits < count
  | _ => False

/-- A run of at least one character, all of which may stand in a bare word. -/
structure IsWord (cs : List Char) : Prop where
  nonempty : cs ≠ []
  chars : ∀ c ∈ cs, Lexer.isAtomChar c = true

instance (cs : List Char) : Decidable (IsWord cs) :=
  decidable_of_iff ((!cs.isEmpty && cs.all Lexer.isAtomChar) = true)
    ⟨fun h => by
      rw [Bool.and_eq_true, Bool.not_eq_true', List.isEmpty_eq_false_iff, List.all_eq_true] at h
      exact ⟨h.1, h.2⟩,
    fun h => by
      rw [Bool.and_eq_true, Bool.not_eq_true', List.isEmpty_eq_false_iff, List.all_eq_true]
      exact ⟨h.nonempty, h.chars⟩⟩

/-- A token that a text can spell. -/
inductive Token.Printable : Token → Prop
  | openParen : Printable ⟨.openParen, "("⟩
  | closeParen : Printable ⟨.closeParen, ")"⟩
  | openBracket : Printable ⟨.openBracket, "["⟩
  | closeBracket : Printable ⟨.closeBracket, "]"⟩
  | quote : Printable ⟨.quote, "'"⟩
  | string (text : String) : Printable ⟨.string, text⟩
  | yes : Printable ⟨.boolean, "true"⟩
  | no : Printable ⟨.boolean, "false"⟩
  | number {text : String} (literal : NumberLiteral.Literal text.toList) :
    Printable ⟨.number, text⟩
  | keyword {name : String} (word : IsWord name.toList) : Printable ⟨.keyword, name⟩
  | symbol {name : String} (word : IsWord name.toList)
    (noNumber : ¬ NumberLiteral.Literal name.toList) (noBoolean : name ≠ "true" ∧ name ≠ "false")
    (noKeyword : ∀ c rest, name.toList ≠ ':' :: c :: rest) : Printable ⟨.symbol, name⟩

/-- A symbol has a text, and a number's text is a literal. -/
structure Token.Proper (t : Token) : Prop where
  symbol : t.kind = .symbol → t.text ≠ ""
  number : t.kind = .number → isDecimalLiteral t.text = true

/-- The token is no literal that is kept as integer text with more digits than can be converted. -/
def Token.DigitLimited (t : Token) : Prop :=
  t.kind = .number → isLongIntegerText t.text = true →
    IntegerText.digitCount t.text ≤ IntegerText.maxDigits

instance (t : Token) : Decidable t.DigitLimited := inferInstanceAs (Decidable (_ → _ → _))

/-- All integer literals of the text can be converted. -/
def DigitLimited (source : String) : Prop :=
  ∀ tokens ∈ (Token.ofSource source).toOption, ∀ t ∈ tokens, t.DigitLimited

instance (source : String) : Decidable (DigitLimited source) :=
  inferInstanceAs (Decidable (∀ tokens ∈ (Token.ofSource source).toOption, ∀ t ∈ tokens, _))

theorem Token.Printable.proper {t : Token} (printable : t.Printable) : t.Proper := by
  cases printable with
  | number literal => exact ⟨nofun, fun _ => isDecimalLiteral_iff.mpr literal⟩
  | symbol word =>
    refine ⟨fun _ empty => word.nonempty ?_, nofun⟩
    exact congrArg String.toList empty
  | _ => exact ⟨nofun, nofun⟩

theorem Token.Printable.kind_ne_endOfInput {t : Token} (printable : t.Printable) :
    t.kind ≠ .endOfInput := by
  cases printable <;> exact nofun

theorem Token.ofDelimiter?_printable {c : Char} {t : Token} (found : ofDelimiter? c = some t) :
    t.Printable := by
  rw [ofDelimiter?.eq_def] at found
  split at found
  all_goals cases found
  · exact .openParen
  · exact .closeParen
  · exact .openBracket
  · exact .closeBracket
  · exact .quote

/-- A word is a token of exactly one kind. -/
theorem Token.ofAtom_printable {text : String} (word : IsWord text.toList) :
    (ofAtom text).Printable := by
  rw [ofAtom]
  split_ifs with literal boolean
  · exact .number (isDecimalLiteral_iff.mp literal)
  · rcases boolean with rfl | rfl
    · exact .yes
    · exact .no
  · split
    · rename_i c rest spelled
      refine .keyword ⟨?_, fun d member => word.chars d ?_⟩
      · rw [String.toList_ofList]
        exact List.cons_ne_nil c rest
      · rw [String.toList_ofList] at member
        rw [spelled]
        exact List.mem_cons_of_mem _ member
    · rename_i other
      refine .symbol word (fun is => literal (isDecimalLiteral_iff.mpr is)) ?_ other
      exact not_or.mp boolean

namespace Lexer

theorem atomToken_printable {reversed : List Char} (word : IsWord reversed) :
    (atomToken reversed).Printable := by
  refine Token.ofAtom_printable ⟨?_, ?_⟩
  · rw [String.toList_ofList]
    exact mt List.reverse_eq_nil_iff.mp word.nonempty
  · rw [String.toList_ofList]
    exact fun c member => word.chars c (List.mem_reverse.mp member)

/-- The tokens so far are printable, and what has begun as a word is one. -/
structure Printable (mode : Mode) (tokens : List Token) : Prop where
  tokens : ∀ t ∈ tokens, t.Printable
  word : ∀ reversed, mode = .atom reversed → IsWord reversed

theorem begin_printable (position : Nat) {tokens : List Token}
    (printable : ∀ t ∈ tokens, t.Printable) (c : Char) :
    Printable (begin position tokens c).1 (begin position tokens c).2 := by
  rw [begin]
  split_ifs with blank comment string
  · exact ⟨printable, nofun⟩
  · exact ⟨printable, nofun⟩
  · exact ⟨printable, nofun⟩
  · split
    · rename_i t found
      exact ⟨List.forall_mem_cons.mpr ⟨Token.ofDelimiter?_printable found, printable⟩, nofun⟩
    · rename_i unknown
      refine ⟨printable, fun reversed same => ?_⟩
      cases same
      refine ⟨List.cons_ne_nil c [], fun d member => ?_⟩
      rw [List.mem_singleton.mp member]
      simp [isAtomChar, blank, comment, string, unknown]

theorem next_printable {s : State} (printable : Printable s.mode s.tokens) (c : Char) :
    Printable (next s c).1 (next s c).2 := by
  obtain ⟨position, mode, tokens⟩ := s
  cases mode with
  | gap => exact begin_printable position printable.tokens c
  | comment =>
    refine ⟨printable.tokens, ?_⟩
    dsimp only [next]
    split <;> exact nofun
  | atom reversed =>
    have word := printable.word reversed rfl
    dsimp only [next]
    split
    · rename_i char
      refine ⟨printable.tokens, fun _ same => ?_⟩
      cases same
      exact ⟨List.cons_ne_nil c reversed, List.forall_mem_cons.mpr ⟨char, word.chars⟩⟩
    · refine begin_printable position (List.forall_mem_cons.mpr ⟨?_, printable.tokens⟩) c
      exact atomToken_printable word
  | string start reversed =>
    dsimp only [next]
    split
    · exact ⟨List.forall_mem_cons.mpr ⟨.string _, printable.tokens⟩, nofun⟩
    · split
      · exact ⟨printable.tokens, nofun⟩
      · exact ⟨printable.tokens, nofun⟩
  | escape start reversed => exact ⟨printable.tokens, nofun⟩

theorem foldl_printable {s : State} (printable : Printable s.mode s.tokens) (cs : List Char) :
    Printable (cs.foldl step s).mode (cs.foldl step s).tokens := by
  induction cs generalizing s with
  | nil => exact printable
  | cons c rest ih => exact ih (next_printable printable c)

theorem run_printable {cs : List Char} {tokens : List Token} (ran : run cs = .ok tokens) :
    ∀ t ∈ tokens, t.Printable := by
  have printable := foldl_printable (s := start) ⟨nofun, nofun⟩ cs
  simp only [run, finish] at ran
  split at ran
  · cases ran
    exact fun t member => printable.tokens t (List.mem_reverse.mp member)
  · cases ran
    exact fun t member => printable.tokens t (List.mem_reverse.mp member)
  · rename_i reversed word
    cases ran
    intro t member
    rcases List.mem_cons.mp (List.mem_reverse.mp member) with rfl | older
    · exact atomToken_printable (printable.word reversed word)
    · exact printable.tokens t older
  · cases ran
  · cases ran

end Lexer

namespace Token

variable {source : String} {tokens : List Token}

/-- The tokens of a text are printable tokens and one end mark. -/
theorem ofSource_printable (lexed : ofSource source = .ok tokens) :
    ∃ ts, tokens = ts ++ [endOfInput] ∧ ∀ t ∈ ts, t.Printable := by
  obtain ⟨ts, ran, rfl⟩ := map_eq_ok lexed
  exact ⟨ts, rfl, Lexer.run_printable ran⟩

theorem ofSource_proper (lexed : ofSource source = .ok tokens) : ∀ t ∈ tokens, t.Proper := by
  obtain ⟨ts, rfl, printable⟩ := ofSource_printable lexed
  intro t member
  rcases List.mem_append.mp member with inside | last
  · exact (printable t inside).proper
  · rw [List.mem_singleton.mp last]
    exact ⟨nofun, nofun⟩

end Token

end ModularLisp
