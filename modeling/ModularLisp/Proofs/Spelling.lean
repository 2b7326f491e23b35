import ModularLisp.Proofs.Tokens

/-!
# Written tokens

How a list of tokens may be written: each in one of its spellings, with white space and comments
before, between and behind them. Two neighbouring words need something between them, and only the
last comment may lack its newline. However they are written, the lexer finds the tokens again, and
it never finds a token that could not be written.
-/

namespace ModularLisp

/-- What may stand between tokens: white space, and comments with their newlines. -/
inductive Gap : List Char → Prop
  | nil : Gap []
  | blank {c : Char} {cs : List Char} (blank : Text.isBlank c = true) (rest : Gap cs) :
    Gap (c :: cs)
  | comment {text cs : List Char} (line : '\n' ∉ text) (rest : Gap cs) :
    Gap (';' :: (text ++ '\n' :: cs))

/-- What may follow the last token: the end of the text closes a comment too. -/
inductive LastGap : List Char → Prop
  | gap {cs : List Char} (gap : Gap cs) : LastGap cs
  | comment {cs text : List Char} (gap : Gap cs) (line : '\n' ∉ text) :
    LastGap (cs ++ ';' :: text)

/-- How a character may be written inside a string. -/
inductive CharSpelling : Char → List Char → Prop
  | raw {c : Char} (plain : c ≠ '"' ∧ c ≠ '\\') : CharSpelling c [c]
  | quote : CharSpelling '"' ['\\', '"']
  | backslash : CharSpelling '\\' ['\\', '\\']
  | newline : CharSpelling '\n' ['\\', 'n']

inductive StringSpelling : List Char → List Char → Prop
  | nil : StringSpelling [] []
  | cons {c : Char} {cs ds es : List Char} (first : CharSpelling c ds)
    (rest : StringSpelling cs es) : StringSpelling (c :: cs) (ds ++ es)

inductive Token.Spelling : Token → List Char → Prop
  | string {text : String} {body : List Char} (spelled : StringSpelling text.toList body) :
    Spelling ⟨.string, text⟩ ('"' :: (body ++ ['"']))
  | keyword (name : String) : Spelling ⟨.keyword, name⟩ (':' :: name.toList)
  | plain {t : Token} (other : t.kind ≠ .string ∧ t.kind ≠ .keyword) : Spelling t t.text.toList

/-- Kinds whose tokens run together without a gap. -/
def TokenKind.isAtom : TokenKind → Bool
  | .number | .boolean | .symbol | .keyword => true
  | _ => false

/-- A way to write tokens; `afterAtom` tells whether a word stands right in front. -/
inductive Written : (afterAtom : Bool) → List Token → List Char → Prop
  | nil {afterAtom : Bool} {cs : List Char} (last : LastGap cs) : Written afterAtom [] cs
  | cons {afterAtom : Bool} {t : Token} {ts : List Token} {gap spelling cs : List Char}
    (between : Gap gap) (apart : afterAtom = true → t.kind.isAtom = true → gap ≠ [])
    (spelled : t.Spelling spelling) (rest : Written t.kind.isAtom ts cs) :
    Written afterAtom (t :: ts) (gap ++ (spelling ++ cs))

/-- A character of its own, a string in quotes, or a word. -/
inductive Lexeme : Token → List Char → Prop
  | delimiter {c : Char} {t : Token} (found : Token.ofDelimiter? c = some t) : Lexeme t [c]
  | string {text : String} {body : List Char} (spelled : StringSpelling text.toList body) :
    Lexeme ⟨.string, text⟩ ('"' :: (body ++ ['"']))
  | word {cs : List Char} (word : IsWord cs) : Lexeme (.ofAtom (String.ofList cs)) cs

/-- Only words run together. -/
theorem Token.isAtom_ofAtom (text : String) : (ofAtom text).kind.isAtom = true := by
  rw [ofAtom]
  split_ifs
  · rfl
  · rfl
  · split <;> rfl

theorem Token.isAtom_ofDelimiter? {c : Char} {t : Token} (found : ofDelimiter? c = some t) :
    t.kind.isAtom = false := by
  rw [ofDelimiter?.eq_def] at found
  split at found <;> cases found <;> rfl

namespace Lexer

theorem isAtomChar_of_isDigit {c : Char} (digit : Text.isDigit c = true) :
    isAtomChar c = true := by
  have ne : ∀ d, Text.isDigit d = false → c ≠ d := fun d => NumberLiteral.ne_of_isDigit digit
  have unknown : Token.ofDelimiter? c = none := by
    rw [Token.ofDelimiter?.eq_def]
    split
    · exact absurd rfl (ne '(' (by decide))
    · exact absurd rfl (ne ')' (by decide))
    · exact absurd rfl (ne '[' (by decide))
    · exact absurd rfl (ne ']' (by decide))
    · exact absurd rfl (ne '\x27' (by decide))
    · rfl
  simp [isAtomChar, Text.isBlank_of_isDigit digit, ne ';' (by decide), ne '"' (by decide), unknown]

end Lexer

theorem isWord_of_literal {cs : List Char} (literal : NumberLiteral.Literal cs) : IsWord cs := by
  constructor
  · rintro rfl
    have none := (NumberLiteral.read?_isSome_iff []).mpr literal
    cases none
  · intro c member
    rcases NumberLiteral.mem_literal literal c member with digit | mark
    · exact Lexer.isAtomChar_of_isDigit digit
    · have marks : IsWord ['+', '-', '.', 'e', 'E'] := by decide
      exact marks.chars c mark

/-- A colon with more behind it is neither a number nor a truth value. -/
theorem Token.ofAtom_keyword {name : String} (nonempty : name.toList ≠ []) :
    ofAtom (String.ofList (':' :: name.toList)) = ⟨.keyword, name⟩ := by
  have noNumber : ¬ isDecimalLiteral (String.ofList (':' :: name.toList)) = true := by
    intro literal
    have derived := isDecimalLiteral_iff.mp literal
    rw [String.toList_ofList] at derived
    have impossible := NumberLiteral.mem_literal derived ':' List.mem_cons_self
    revert impossible
    decide
  have noBoolean : ¬ (String.ofList (':' :: name.toList) = "true" ∨
      String.ofList (':' :: name.toList) = "false") := by
    rintro (same | same) <;>
      · have chars := congrArg String.toList same
        rw [String.toList_ofList] at chars
        cases chars
  obtain ⟨c, rest, split⟩ := List.exists_cons_of_ne_nil nonempty
  rw [ofAtom, if_neg noNumber, if_neg noBoolean, String.toList_ofList, split]
  change (⟨.keyword, String.ofList (c :: rest)⟩ : Token) = _
  rw [← split, String.ofList_toList]

theorem lexeme_of_printable {t : Token} {cs : List Char} (printable : t.Printable)
    (spelled : t.Spelling cs) : Lexeme t cs := by
  have word : ∀ text : String, IsWord text.toList → Lexeme (.ofAtom text) text.toList := by
    intro text word
    have lexeme := Lexeme.word word
    rwa [String.ofList_toList] at lexeme
  cases spelled with
  | string spelled => exact .string spelled
  | keyword name =>
    cases printable with
    | keyword inner =>
      have whole : IsWord (':' :: name.toList) :=
        ⟨List.cons_ne_nil _ _, List.forall_mem_cons.mpr ⟨by decide, inner.chars⟩⟩
      have lexeme := Lexeme.word whole
      rwa [Token.ofAtom_keyword inner.nonempty] at lexeme
  | plain other =>
    cases printable with
    | openParen => exact .delimiter rfl
    | closeParen => exact .delimiter rfl
    | openBracket => exact .delimiter rfl
    | closeBracket => exact .delimiter rfl
    | quote => exact .delimiter rfl
    | string => exact absurd rfl other.1
    | keyword => exact absurd rfl other.2
    | yes => exact word "true" (by decide)
    | no => exact word "false" (by decide)
    | @number text literal =>
      have same := word text (isWord_of_literal literal)
      rwa [Token.ofAtom, if_pos (isDecimalLiteral_iff.mpr literal)] at same
    | @symbol name whole noNumber noBoolean noKeyword =>
      have same := word name whole
      rw [Token.ofAtom, if_neg (mt isDecimalLiteral_iff.mp noNumber),
        if_neg (not_or.mpr noBoolean)] at same
      split at same
      · rename_i c rest split
        exact absurd split (noKeyword c rest)
      · exact same

namespace Lexer

/-- Outside of comments and strings: the tokens so far, a word that may still grow included, in
reverse order; `afterAtom` tells whether there is such a word. -/
inductive Between : (afterAtom : Bool) → List Token → State → Prop
  | gap (position : Nat) (tokens : List Token) : Between false tokens ⟨position, .gap, tokens⟩
  | atom (position : Nat) (reversed : List Char) (tokens : List Token) :
    Between true (atomToken reversed :: tokens) ⟨position, .atom reversed, tokens⟩

variable {afterAtom : Bool} {tokens : List Token} {s : State}

/-- What ends a word begins what it would begin behind a gap. -/
theorem step_between (between : Between afterAtom tokens s) {c : Char}
    (ends : isAtomChar c = false) :
    step s c = ⟨s.position + 1, (begin s.position tokens c).1, (begin s.position tokens c).2⟩ := by
  cases between with
  | gap => rfl
  | atom => simp [step, next, ends]

theorem isAtomChar_of_isBlank {c : Char} (blank : Text.isBlank c = true) :
    isAtomChar c = false := by
  simp [isAtomChar, blank]

theorem isAtomChar_of_delimiter {c : Char} {t : Token} (found : Token.ofDelimiter? c = some t) :
    isAtomChar c = false := by
  simp [isAtomChar, found]

theorem begin_blank {c : Char} (blank : Text.isBlank c = true) (position : Nat)
    (tokens : List Token) : begin position tokens c = (.gap, tokens) := by
  simp [begin, blank]

theorem begin_delimiter {c : Char} {t : Token} (found : Token.ofDelimiter? c = some t)
    (position : Nat) (tokens : List Token) : begin position tokens c = (.gap, t :: tokens) := by
  have other : Text.isBlank c = false ∧ c ≠ ';' ∧ c ≠ '"' := by
    have all := found
    rw [Token.ofDelimiter?.eq_def] at all
    split at all
    all_goals first | decide | cases all
  simp [begin, other, found]

theorem begin_word {c : Char} (char : isAtomChar c = true) (position : Nat)
    (tokens : List Token) : begin position tokens c = (.atom [c], tokens) := by
  simp only [isAtomChar, Bool.and_eq_true, Bool.not_eq_true', bne_iff_ne, ne_eq,
    Option.isNone_iff_eq_none] at char
  simp [begin, char]

theorem step_semicolon (between : Between afterAtom tokens s) :
    step s ';' = ⟨s.position + 1, .comment, tokens⟩ :=
  step_between between (by decide)

theorem step_comment_newline (position : Nat) (tokens : List Token) :
    step ⟨position, .comment, tokens⟩ '\n' = ⟨position + 1, .gap, tokens⟩ := rfl

theorem step_string_plain {c : Char} (plain : c ≠ '"' ∧ c ≠ '\\') (position first : Nat)
    (reversed : List Char) (tokens : List Token) :
    step ⟨position, .string first reversed, tokens⟩ c =
      ⟨position + 1, .string first (c :: reversed), tokens⟩ := by
  simp [step, next, plain]

theorem foldl_comment {text : List Char} (line : '\n' ∉ text) (position : Nat)
    (tokens : List Token) :
    text.foldl step ⟨position, .comment, tokens⟩ = ⟨position + text.length, .comment, tokens⟩ := by
  induction text generalizing position with
  | nil => rfl
  | cons c rest ih =>
    simp only [List.mem_cons, not_or] at line
    have stays : step ⟨position, .comment, tokens⟩ c = ⟨position + 1, .comment, tokens⟩ := by
      simp [step, next, Ne.symm line.1]
    rw [List.foldl_cons, stays, ih line.2, List.length_cons, Nat.add_assoc, Nat.add_comm 1]

/-- A gap adds no token; one that is not empty ends a word. -/
theorem foldl_gap {cs : List Char} (gap : Gap cs) (between : Between afterAtom tokens s) :
    Between (afterAtom && cs.isEmpty) tokens (cs.foldl step s) := by
  induction gap generalizing afterAtom s with
  | nil => simpa using between
  | @blank c rest blank _ ih =>
    rw [List.foldl_cons, step_between between (isAtomChar_of_isBlank blank), begin_blank blank]
    simpa using ih (.gap (s.position + 1) tokens)
  | @comment text rest line _ ih =>
    have closed := step_comment_newline (s.position + 1 + text.length) tokens
    rw [List.foldl_cons, step_semicolon between, List.foldl_append, foldl_comment line,
      List.foldl_cons, closed]
    simpa using ih (.gap _ tokens)

theorem foldl_string {cs body : List Char} (spelled : StringSpelling cs body)
    (position first : Nat) (reversed : List Char) (tokens : List Token) :
    body.foldl step ⟨position, .string first reversed, tokens⟩ =
      ⟨position + body.length, .string first (cs.reverse ++ reversed), tokens⟩ := by
  induction spelled generalizing position reversed with
  | nil => rfl
  | @cons c cs ds es char _ ih =>
    have here : ds.foldl step ⟨position, .string first reversed, tokens⟩ =
        ⟨position + ds.length, .string first (c :: reversed), tokens⟩ := by
      cases char with
      | raw plain => exact step_string_plain plain position first reversed tokens
      | quote | backslash | newline => rfl
    rw [List.foldl_append, here, ih, List.reverse_cons, List.append_assoc, List.singleton_append,
      List.length_append, Nat.add_assoc]

theorem foldl_word {cs : List Char} (chars : ∀ c ∈ cs, isAtomChar c = true) (position : Nat)
    (reversed : List Char) (tokens : List Token) :
    cs.foldl step ⟨position, .atom reversed, tokens⟩ =
      ⟨position + cs.length, .atom (cs.reverse ++ reversed), tokens⟩ := by
  induction cs generalizing position reversed with
  | nil => rfl
  | cons c rest ih =>
    obtain ⟨char, later⟩ := List.forall_mem_cons.mp chars
    have grows : step ⟨position, .atom reversed, tokens⟩ c =
        ⟨position + 1, .atom (c :: reversed), tokens⟩ := by
      simp [step, next, char]
    rw [List.foldl_cons, grows, ih later, List.reverse_cons, List.append_assoc,
      List.singleton_append, List.length_cons, Nat.add_assoc, Nat.add_comm 1]

/-- A lexeme adds its token, where it does not continue a word. -/
theorem foldl_lexeme {t : Token} {cs : List Char} (lexeme : Lexeme t cs)
    (between : Between afterAtom tokens s) (apart : afterAtom = true → t.kind.isAtom = false) :
    Between t.kind.isAtom (t :: tokens) (cs.foldl step s) := by
  cases lexeme with
  | delimiter found =>
    rw [List.foldl_cons, step_between between (isAtomChar_of_delimiter found),
      begin_delimiter found, Token.isAtom_ofDelimiter? found]
    exact .gap _ _
  | @string text body spelled =>
    have began : begin s.position tokens '"' = (.string s.position [], tokens) := rfl
    rw [List.foldl_cons, step_between between (by decide), began, List.foldl_append,
      foldl_string spelled, List.append_nil]
    have ended : stringToken text.toList.reverse = ⟨.string, text⟩ := by
      rw [stringToken, List.reverse_reverse, String.ofList_toList]
    rw [← ended]
    exact .gap _ _
  | word word =>
    rw [Token.isAtom_ofAtom] at apart ⊢
    cases between with
    | atom => cases apart rfl
    | gap position =>
      cases cs with
      | nil => exact absurd rfl word.nonempty
      | cons c rest =>
        obtain ⟨char, later⟩ := List.forall_mem_cons.mp word.chars
        have began : step ⟨position, .gap, tokens⟩ c = ⟨position + 1, .atom [c], tokens⟩ := by
          simp [step, next, begin_word char]
        have whole := Between.atom (position + 1 + rest.length) (rest.reverse ++ [c]) tokens
        rw [List.foldl_cons, began, foldl_word later]
        rwa [atomToken, List.reverse_append, List.reverse_reverse] at whole

theorem finish_between (between : Between afterAtom tokens s) :
    finish s = .ok tokens.reverse := by
  cases between <;> rfl

theorem finish_lastGap {cs : List Char} (last : LastGap cs)
    (between : Between afterAtom tokens s) : finish (cs.foldl step s) = .ok tokens.reverse := by
  cases last with
  | gap gap => exact finish_between (foldl_gap gap between)
  | comment gap line =>
    have here := foldl_gap gap between
    rw [List.foldl_append, List.foldl_cons, step_semicolon here, foldl_comment line]
    rfl

theorem finish_written {ts : List Token} {cs : List Char} (written : Written afterAtom ts cs)
    (printable : ∀ t ∈ ts, t.Printable) (between : Between afterAtom tokens s) :
    finish (cs.foldl step s) = .ok (tokens.reverse ++ ts) := by
  induction written generalizing tokens s with
  | nil last => rw [finish_lastGap last between, List.append_nil]
  | @cons afterAtom t ts gap spelling cs gap_ok apart spelled _ ih =>
    obtain ⟨first, later⟩ := List.forall_mem_cons.mp printable
    have here := foldl_gap gap_ok between
    have distinct : (afterAtom && gap.isEmpty) = true → t.kind.isAtom = false := by
      intro joined
      simp only [Bool.and_eq_true, List.isEmpty_iff] at joined
      by_contra atom
      exact apart joined.1 (by simpa using atom) joined.2
    have after := foldl_lexeme (lexeme_of_printable first spelled) here distinct
    rw [List.foldl_append, List.foldl_append, ih later after, List.reverse_cons, List.append_assoc,
      List.singleton_append]

end Lexer

namespace Token

theorem ofSource_written {ts : List Token} {source : String}
    (written : Written false ts source.toList) (printable : ∀ t ∈ ts, t.Printable) :
    ofSource source = .ok (ts ++ [endOfInput]) := by
  have ran := Lexer.finish_written written printable (.gap 0 [])
  rw [ofSource, Lexer.run, Lexer.start, ran]
  rfl

/-- Lexing undoes writing: printable tokens come back from every text in which they are written,
followed by one end mark, and no text gives any other tokens. -/
theorem lexing_undoes_writing :
    (∀ (ts : List Token) (source : String), (∀ t ∈ ts, t.Printable) →
      Written false ts source.toList → ofSource source = .ok (ts ++ [endOfInput])) ∧
    ∀ (source : String) (tokens : List Token), ofSource source = .ok tokens →
      ∃ ts, tokens = ts ++ [endOfInput] ∧ ∀ t ∈ ts, t.Printable :=
  ⟨fun _ _ printable written => ofSource_written written printable,
    fun _ _ lexed => ofSource_printable lexed⟩

/-- Words, a string and a number without a blank between them, where nothing else separates words
than a comment with a quote in it; the last comment stays open. -/
theorem lexing_undoes_writing_of_dense_text :
    let ts : List Token := [⟨.quote, "'"⟩, ⟨.symbol, "a:"⟩, ⟨.keyword, "b"⟩, ⟨.string, "\n\"\\"⟩,
      ⟨.number, "-1.e5"⟩]
    let source := "'a:;\"\n:b\"\n\\\"\\\\\"-1.e5;)"
    (∀ t ∈ ts, t.Printable) ∧ Written false ts source.toList ∧
      ofSource source = .ok (ts ++ [endOfInput]) := by
  intro ts source
  have printable : ∀ t ∈ ts, t.Printable := by
    have literal : NumberLiteral.Literal "-1.e5".toList := isDecimalLiteral_iff.mp (by decide)
    have other : ¬ NumberLiteral.Literal "a:".toList := mt isDecimalLiteral_iff.mpr (by decide)
    have noKeyword : ∀ c rest, "a:".toList ≠ ':' :: c :: rest := fun c rest same => by cases same
    have symbol := Printable.symbol (by decide) other (by decide) noKeyword
    simp only [ts, List.forall_mem_cons]
    exact ⟨.quote, symbol, .keyword (by decide), .string _, .number literal, nofun⟩
  have written : Written false ts source.toList := by
    let comment := [';', '"', '\n']
    let body := ['\n', '\\', '"', '\\', '\\']
    have quoteMark : '\n' ∉ ['"'] := by decide
    have between : Gap comment := .comment quoteMark .nil
    have string : StringSpelling ['\n', '"', '\\'] body :=
      .cons (.raw (by decide)) (.cons .quote (.cons .backslash .nil))
    have parenthesis : '\n' ∉ [')'] := by decide
    have last : LastGap [';', ')'] := .comment .nil parenthesis
    have number : Written false (ts.drop 4) ([] ++ ("-1.e5".toList ++ [';', ')'])) :=
      .cons .nil nofun (.plain (by decide)) (.nil last)
    have behind : Written true (ts.drop 3) ([] ++ ('"' :: (body ++ ['"']) ++ _)) :=
      .cons .nil nofun (.string string) number
    have keyword : Written true (ts.drop 2) (comment ++ (':' :: "b".toList ++ _)) :=
      .cons between (fun _ _ => List.cons_ne_nil _ _) (.keyword "b") behind
    have symbol : Written false (ts.drop 1) ([] ++ ("a:".toList ++ _)) :=
      .cons .nil nofun (.plain (by decide)) keyword
    have quote : Written false ts ([] ++ ("'".toList ++ _)) :=
      .cons .nil nofun (.plain (by decide)) symbol
    have chars : source.toList = ['\x27', 'a', ':'] ++ comment ++ [':', 'b', '"'] ++ body ++
        ['"', '-', '1', '.', 'e', '5', ';', ')'] := by decide
    rw [chars]
    exact quote
  exact ⟨printable, written, lexing_undoes_writing.1 ts source printable written⟩

end Token

end ModularLisp
