import ModularLisp.Error
import ModularLisp.Proofs.Grammar
import ModularLisp.Proofs.Names
import ModularLisp.Proofs.Spelling

/-!
# How reading fails

A text is cut into blanks, comments, delimiters, strings and words, each as long as it can be. Such
a piece can be taken wherever one ends, except in front of a double quote that nothing closes: there
the lexer fails, and nowhere else. The tokens of a text are numbers and truth values only where the
parser accepts them as such. What is left to refuse is a number too large, what does not close or
close rightly, a malformed declaration, and a quote mark with nothing behind it.
-/

namespace ModularLisp

namespace Lexer

/-- What may stand between the quotes of a string: a backslash goes with the character behind it,
and no other quote stands there. -/
inductive StringBody : List Char → Prop
  | nil : StringBody []
  | plain {c : Char} {cs : List Char} (plain : c ≠ '"' ∧ c ≠ '\\') (rest : StringBody cs) :
    StringBody (c :: cs)
  | escaped (c : Char) {cs : List Char} (rest : StringBody cs) : StringBody ('\\' :: c :: cs)

/-- No quote in the text closes a string that starts right in front of it. -/
def Unclosed (cs : List Char) : Prop :=
  ∀ body after, cs = body ++ '"' :: after → ¬StringBody body

theorem Unclosed.plain {c : Char} {cs : List Char} (unclosed : Unclosed (c :: cs))
    (plain : c ≠ '"' ∧ c ≠ '\\') : Unclosed cs :=
  fun body after same inside => unclosed (c :: body) after (congrArg (c :: ·) same)
    (.plain plain inside)

theorem Unclosed.escaped {c : Char} {cs : List Char} (unclosed : Unclosed ('\\' :: c :: cs)) :
    Unclosed cs :=
  fun body after same inside => unclosed ('\\' :: c :: body) after
    (congrArg ('\\' :: c :: ·) same) (.escaped c inside)

/-- What can be taken at once from the front of a text, and what is left then. A comment and a word
are taken as far as they go. -/
inductive Piece : List Char → List Char → Prop
  | blank {c : Char} {rest : List Char} (blank : Text.isBlank c = true) : Piece [c] rest
  | comment {text rest : List Char} (line : '\n' ∉ text)
    (ends : ∀ c, rest.head? = some c → c = '\n') : Piece (';' :: text) rest
  | delimiter {c : Char} {t : Token} {rest : List Char} (found : Token.ofDelimiter? c = some t) :
    Piece [c] rest
  | string {body rest : List Char} (closed : StringBody body) : Piece ('"' :: (body ++ ['"'])) rest
  | word {cs rest : List Char} (word : IsWord cs)
    (ends : ∀ c, rest.head? = some c → isAtomChar c = false) : Piece cs rest

/-- A place in a text, given by what stands before and behind it, that is reached by taking pieces
from the front. -/
inductive Boundary (text : List Char) : List Char → List Char → Prop
  | start : Boundary text [] text
  | next {before piece rest : List Char} (here : Boundary text before (piece ++ rest))
    (taken : Piece piece rest) : Boundary text (before ++ piece) rest

variable {text before piece rest : List Char} {s : State} {tokens : List Token}

theorem Piece.ne_nil (taken : Piece piece rest) : piece ≠ [] := by
  cases taken with
  | word word => exact word.nonempty
  | _ => exact List.cons_ne_nil _ _

/-- Where the text goes on a piece can be taken, or a string starts that is never closed. -/
theorem exists_piece_or_unclosed (c : Char) (rest : List Char) :
    (∃ piece after, c :: rest = piece ++ after ∧ Piece piece after) ∨
      c = '"' ∧ Unclosed rest := by
  have stops : ∀ (accepts : Char → Bool) (d : Char),
      (rest.dropWhile accepts).head? = some d → accepts d = false := by
    intro accepts d first
    have stopped := List.head?_dropWhile_not accepts rest
    rwa [first] at stopped
  by_cases blank : Text.isBlank c = true
  · exact Or.inl ⟨[c], rest, rfl, .blank blank⟩
  by_cases comment : c = ';'
  · subst comment
    refine Or.inl ⟨';' :: rest.takeWhile (· ≠ '\n'), rest.dropWhile (· ≠ '\n'), ?_, ?_⟩
    · rw [List.cons_append, List.takeWhile_append_dropWhile]
    · refine .comment (fun inside => ?_) fun d first => ?_
      · simpa using List.mem_takeWhile_imp inside
      · simpa using stops _ d first
  by_cases quote : c = '"'
  · subst quote
    by_cases closed : ∃ body after, rest = body ++ '"' :: after ∧ StringBody body
    · obtain ⟨body, after, rfl, closed⟩ := closed
      exact Or.inl ⟨'"' :: (body ++ ['"']), after, by simp, .string closed⟩
    · exact Or.inr ⟨rfl, fun body after same inside => closed ⟨body, after, same, inside⟩⟩
  cases delimiter : Token.ofDelimiter? c with
  | some t => exact Or.inl ⟨[c], rest, rfl, .delimiter delimiter⟩
  | none =>
    have char : isAtomChar c = true := by simp [isAtomChar, blank, comment, quote, delimiter]
    refine Or.inl ⟨c :: rest.takeWhile isAtomChar, rest.dropWhile isAtomChar, ?_, ?_⟩
    · rw [List.cons_append, List.takeWhile_append_dropWhile]
    · refine .word ⟨List.cons_ne_nil _ _, List.forall_mem_cons.mpr ⟨char, fun d inside => ?_⟩⟩ ?_
      · exact List.mem_takeWhile_imp inside
      · exact stops isAtomChar

/-- Taking pieces comes to the end of the text or to a string that is never closed. -/
theorem exists_last_boundary (here : Boundary text before rest) :
    (∃ before, Boundary text before []) ∨
      ∃ before rest, Boundary text before ('"' :: rest) ∧ Unclosed rest := by
  induction length : rest.length using Nat.strong_induction_on generalizing before rest with
  | _ n ih =>
    cases rest with
    | nil => exact Or.inl ⟨before, here⟩
    | cons c more =>
      rcases exists_piece_or_unclosed c more with ⟨piece, after, same, taken⟩ | ⟨rfl, unclosed⟩
      · rw [same] at here length
        refine ih after.length ?_ (here.next taken) rfl
        have nonempty := List.length_pos_of_ne_nil taken.ne_nil
        rw [List.length_append] at length
        omega
      · exact Or.inr ⟨before, more, here, unclosed⟩

/-- The lexer has found `tokens`, which are in reverse order, and takes up what comes next as if
nothing had begun. -/
structure Resumes (s : State) (tokens : List Token) (rest : List Char) : Prop where
  finish : finish s = .ok tokens.reverse
  next : ∀ c, rest.head? = some c → next s c = begin s.position tokens c

theorem resumes_gap (position : Nat) (tokens : List Token) (rest : List Char) :
    Resumes ⟨position, .gap, tokens⟩ tokens rest :=
  ⟨rfl, fun _ _ => rfl⟩

theorem Resumes.step_head {c : Char} {more : List Char} (resumes : Resumes s tokens (c :: more)) :
    step s c = ⟨s.position + 1, (begin s.position tokens c).1, (begin s.position tokens c).2⟩ := by
  rw [step, resumes.next c rfl]

theorem foldl_body {body : List Char} (inside : StringBody body) (position first : Nat)
    (reversed : List Char) (tokens : List Token) :
    ∃ position' reversed', body.foldl step ⟨position, .string first reversed, tokens⟩ =
      ⟨position', .string first reversed', tokens⟩ := by
  induction inside generalizing position reversed with
  | nil => exact ⟨_, _, rfl⟩
  | plain plain _ ih =>
    rw [List.foldl_cons, step_string_plain plain]
    exact ih _ _
  | escaped c _ ih => exact ih _ _

/-- Each piece is taken as a whole. -/
theorem resumes_piece (resumes : Resumes s tokens (piece ++ rest)) (taken : Piece piece rest) :
    ∃ tokens', Resumes (piece.foldl step s) tokens' rest := by
  cases taken with
  | blank blank =>
    rw [List.foldl_cons, resumes.step_head, begin_blank blank]
    exact ⟨tokens, resumes_gap ..⟩
  | comment line ends =>
    rw [List.foldl_cons, resumes.step_head]
    change ∃ tokens', Resumes (List.foldl step ⟨s.position + 1, .comment, tokens⟩ _) tokens' rest
    rw [foldl_comment line]
    refine ⟨tokens, rfl, fun c first => ?_⟩
    rw [ends c first]
    rfl
  | delimiter found =>
    rw [List.foldl_cons, resumes.step_head, begin_delimiter found]
    exact ⟨_, resumes_gap ..⟩
  | @string body _ closed =>
    obtain ⟨position, reversed, inside⟩ := foldl_body closed (s.position + 1) s.position [] tokens
    have opened : step s '"' = ⟨s.position + 1, .string s.position [], tokens⟩ := resumes.step_head
    rw [List.foldl_cons, opened, List.foldl_append, inside]
    exact ⟨stringToken reversed :: tokens, resumes_gap ..⟩
  | word word ends =>
    obtain ⟨c, more, rfl⟩ := List.exists_cons_of_ne_nil word.nonempty
    obtain ⟨char, later⟩ := List.forall_mem_cons.mp word.chars
    rw [List.foldl_cons, resumes.step_head, begin_word char, foldl_word later]
    refine ⟨atomToken (more.reverse ++ [c]) :: tokens, rfl, fun d first => ?_⟩
    simp only [Lexer.next, ends d first, Bool.false_eq_true, if_false]

theorem resumes_boundary (here : Boundary text before rest) :
    text = before ++ rest ∧ ∃ tokens, Resumes (before.foldl step start) tokens rest := by
  induction here with
  | start => exact ⟨rfl, [], resumes_gap ..⟩
  | next _ taken ih =>
    obtain ⟨same, tokens, resumes⟩ := ih
    refine ⟨by rw [same, List.append_assoc], ?_⟩
    rw [List.foldl_append]
    exact resumes_piece resumes taken

/-- A string that is never closed is still open at the end, behind a backslash or not. -/
theorem finish_unclosed (first : Nat) (tokens : List Token) (rest : List Char) (position : Nat)
    (reversed : List Char) :
    (Unclosed rest →
      finish (rest.foldl step ⟨position, .string first reversed, tokens⟩) = .error ⟨first⟩) ∧
    (Unclosed ('\\' :: rest) →
      finish (rest.foldl step ⟨position, .escape first reversed, tokens⟩) = .error ⟨first⟩) := by
  induction rest generalizing position reversed with
  | nil => exact ⟨fun _ => rfl, fun _ => rfl⟩
  | cons c more ih =>
    refine ⟨fun unclosed => ?_, fun unclosed => (ih _ _).1 unclosed.escaped⟩
    by_cases quote : c = '"'
    · subst quote
      exact absurd .nil (unclosed [] more rfl)
    by_cases escape : c = '\\'
    · subst escape
      exact (ih _ _).2 unclosed
    · rw [List.foldl_cons, step_string_plain ⟨quote, escape⟩]
      exact (ih _ _).1 (unclosed.plain ⟨quote, escape⟩)

theorem run_of_boundary (here : Boundary text before []) : ∃ tokens, run text = .ok tokens := by
  obtain ⟨same, tokens, resumes⟩ := resumes_boundary here
  rw [List.append_nil] at same
  exact ⟨_, same ▸ resumes.finish⟩

theorem run_of_unclosed (here : Boundary text before ('"' :: rest)) (unclosed : Unclosed rest) :
    run text = .error ⟨before.length⟩ := by
  obtain ⟨same, tokens, resumes⟩ := resumes_boundary here
  have position : (before.foldl step start).position = before.length := by
    rw [position_foldl, start, Nat.zero_add]
  have opened : step (before.foldl step start) '"' =
      ⟨before.length + 1, .string before.length [], tokens⟩ := by
    rw [resumes.step_head, position]
    rfl
  rw [same, run_append, List.foldl_cons, opened]
  exact (finish_unclosed _ _ _ _ _).1 unclosed

/-- The lexer fails exactly in front of strings that are never closed. -/
theorem run_eq_error_iff {e : UnterminatedString} : run text = .error e ↔
    ∃ before rest, Boundary text before ('"' :: rest) ∧ Unclosed rest ∧ e = ⟨before.length⟩ := by
  constructor
  · intro failed
    rcases exists_last_boundary (.start : Boundary text [] text) with
      ⟨before, here⟩ | ⟨before, rest, here, unclosed⟩
    · obtain ⟨tokens, ran⟩ := run_of_boundary here
      cases failed.symm.trans ran
    · have same := failed.symm.trans (run_of_unclosed here unclosed)
      exact ⟨before, rest, here, unclosed, Except.error.inj same⟩
  · rintro ⟨before, rest, here, unclosed, rfl⟩
    exact run_of_unclosed here unclosed

end Lexer

namespace Parser

/-- What can be wrong with tokens that a text can spell. -/
inductive Refused (ts : List Token) : ReadError → Prop
  | emptyInput : Refused ts .emptyInput
  | outOfRange {text : String} {literal : NumberLiteral} (number : ⟨.number, text⟩ ∈ ts)
    (read : NumberLiteral.read? text.toList = some literal)
    (infinite : literal.value.isInfinite = true) : Refused ts (.numberOutOfRange text)
  | unexpectedClosing (enclosure : Enclosure) : Refused ts (.unexpectedClosing enclosure)
  | unmatchedOpening (enclosure : Enclosure) : Refused ts (.unmatchedOpening enclosure)
  | trailingToken (t : Token) : Refused ts (.trailingToken t)
  | malformed (form : MalformedForm) : Refused ts (.malformed form)
  | endBehindQuote {before : List Token} (last : ts = before ++ [⟨.quote, "'"⟩]) :
    Refused ts .unexpectedEnd

variable {ts : List Token} {s : State} {t : Token} {e : ReadError}

theorem numberOf_refused {text : String} (member : ⟨.number, text⟩ ∈ ts)
    (literal : NumberLiteral.Literal text.toList) (failed : numberOf text = .error e) :
    Refused ts e := by
  obtain ⟨l, read⟩ := Option.isSome_iff_exists.mp ((NumberLiteral.read?_isSome_iff _).mpr literal)
  have decimal : NumberText.read? text = some (.decimal l) := by rw [NumberText.read?, read]
  simp only [numberOf, decimal] at failed
  split_ifs at failed with infinite
  cases failed
  exact .outOfRange member read infinite

theorem close_refused {enclosure : Enclosure} (failed : s.close enclosure = .error e) :
    Refused ts e := by
  rw [State.close] at failed
  split at failed
  · split_ifs at failed
    · have opened := map_eq_error failed
      cases enclosure with
      | parenthesis =>
        obtain ⟨form, -, rfl⟩ := mapError_eq_error opened
        exact .malformed form
      | bracket => cases opened
    · cases failed
      exact .unexpectedClosing enclosure
  · cases failed
    exact .unexpectedClosing enclosure

theorem step_refused (printable : t.Printable) (member : t ∈ ts) (failed : step s t = .error e) :
    Refused ts e := by
  cases printable with
  | number literal => exact numberOf_refused member literal (map_eq_error failed)
  | closeParen | closeBracket => exact close_refused failed
  | _ => cases failed

theorem stepOnce_refused (printable : t.Printable) (member : t ∈ ts)
    (failed : stepOnce s t = .error e) : Refused ts e := by
  rw [stepOnce.eq_def] at failed
  split at failed
  · cases failed
    exact .trailingToken t
  · exact step_refused printable member failed

/-- What is still open at the end; a quote is open only when it comes last. -/
theorem finish_refused (printable : ∀ t ∈ ts, t.Printable) (ran : ts.foldlM step start = .ok s)
    (failed : finish s = .error e) : Refused ts e := by
  have begun : Taken [] start := .forms .nil
  have taken := begun.run (fun t member => (printable t member).kind_ne_endOfInput) ran
  rw [List.nil_append] at taken
  cases taken with
  | forms => cases failed
  | sequence enclosure =>
    cases failed
    exact .unmatchedOpening enclosure
  | quote mark =>
    cases failed
    cases printable ⟨.quote, mark⟩ (List.mem_append_right _ List.mem_cons_self) with
    | quote => exact .endBehindQuote rfl

theorem parseAll_refused (printable : ∀ t ∈ untilEnd ts, t.Printable)
    (failed : parseAll ts = .error e) : Refused (untilEnd ts) e := by
  rcases except_bind_eq_error failed with early | ⟨s, ran, late⟩
  · obtain ⟨t, member, s, stopped⟩ := foldlM_error early
    exact step_refused (printable t member) member stopped
  · exact finish_refused printable ran late

theorem parse_refused (printable : ∀ t ∈ untilEnd ts, t.Printable)
    (failed : parse ts = .error e) : Refused (untilEnd ts) e := by
  rcases except_bind_eq_error failed with early | ⟨s, ran, late⟩
  · obtain ⟨t, member, s, stopped⟩ := foldlM_error early
    exact stepOnce_refused (printable t member) member stopped
  rcases except_bind_eq_error late with unfinished | ⟨es, -, chosen⟩
  · exact finish_refused printable (run_of_runOnce ran) unfinished
  · cases es with
    | nil =>
      cases chosen
      exact .emptyInput
    | cons => cases chosen

end Parser

namespace Expr

variable {source : String} {ts : List Token} {e : ReadError}

theorem tokens_eq_error_iff : tokens source = .error e ↔ ∃ before rest,
    Lexer.Boundary source.toList before ('"' :: rest) ∧ Lexer.Unclosed rest ∧
      e = .unterminatedString before.length := by
  constructor
  · intro failed
    obtain ⟨d, unlexed, rfl⟩ := mapError_eq_error failed
    obtain ⟨before, rest, here, unclosed, rfl⟩ := Lexer.run_eq_error_iff.mp (map_eq_error unlexed)
    exact ⟨before, rest, here, unclosed, rfl⟩
  · rintro ⟨before, rest, here, unclosed, rfl⟩
    rw [tokens, Token.ofSource, Lexer.run_of_unclosed here unclosed]
    rfl

/-- The tokens of a text are refused without their end mark. -/
theorem refused_of_tokens (lexed : tokens source = .ok ts)
    (failed : read source = .error e ∨ readAll source = .error e) :
    ∃ us, ts = us ++ [Token.endOfInput] ∧ Parser.Refused us e := by
  obtain ⟨us, rfl, printable⟩ := Token.ofSource_printable (mapError_eq_ok lexed)
  have inner : Parser.untilEnd (us ++ [Token.endOfInput]) = us := by
    rw [Parser.untilEnd_append fun t member => (printable t member).kind_ne_endOfInput,
      Parser.untilEnd_end, List.append_nil]
  refine ⟨us, rfl, ?_⟩
  rw [← inner] at printable ⊢
  rcases failed with failed | failed
  · rw [read, lexed] at failed
    exact Parser.parse_refused printable failed
  · rw [readAll, lexed] at failed
    exact Parser.parseAll_refused printable failed

/-- Reading fails in known ways only. The lexer fails exactly when a double quote at a boundary of
the text is never closed, and its error tells where; in front of any other character a piece can
be taken, so none is unexpected. Where the lexer succeeds, the parser
takes every truth value for one, refuses a number only when it is a literal with an infinite value,
and misses an expression at the end only behind a quote mark. -/
theorem reading_fails_in_known_ways (source : String) :
    (∀ e, tokens source = .error e ↔ ∃ before rest,
      Lexer.Boundary source.toList before ('"' :: rest) ∧ Lexer.Unclosed rest ∧
        e = .unterminatedString before.length) ∧
    (∀ c rest, (∃ piece after, c :: rest = piece ++ after ∧ piece ≠ [] ∧
      Lexer.Piece piece after) ∨ c = '"' ∧ Lexer.Unclosed rest) ∧
    (∀ ts e, tokens source = .ok ts → (read source = .error e ∨ readAll source = .error e) →
      e.kind ≠ .malformedText ∧ e.kind ≠ .invalidBoolean ∧
      (e.kind = .invalidNumber → ∃ text literal, ⟨.number, text⟩ ∈ ts ∧
        NumberLiteral.read? text.toList = some literal ∧ literal.value.isInfinite = true ∧
        e = .numberOutOfRange text) ∧
      (e.kind = .unexpectedToken → e = .unexpectedEnd ∧
        ∃ before, ts = before ++ [⟨.quote, "'"⟩, Token.endOfInput])) ∧
    ∀ position, (ReadError.unterminatedString position).kind = .malformedText ∧
      (ReadError.unterminatedString position).message =
        "Unterminated string starting at " ++ toString position := by
  refine ⟨fun e => tokens_eq_error_iff, ?pieces, ?parser, fun _ => ⟨rfl, rfl⟩⟩
  case pieces =>
    intro c rest
    refine (Lexer.exists_piece_or_unclosed c rest).imp_left ?_
    rintro ⟨piece, after, same, taken⟩
    exact ⟨piece, after, same, taken.ne_nil, taken⟩
  case parser =>
    intro ts e lexed failed
    obtain ⟨us, rfl, refused⟩ := refused_of_tokens lexed failed
    cases refused with
    | outOfRange number read infinite =>
      refine ⟨nofun, nofun, fun _ => ?_, nofun⟩
      exact ⟨_, _, List.mem_append_left _ number, read, infinite, rfl⟩
    | @endBehindQuote before last =>
      refine ⟨nofun, nofun, nofun, fun _ => ⟨rfl, before, ?_⟩⟩
      rw [last, List.append_assoc, List.singleton_append]
    | _ => exact ⟨nofun, nofun, nofun, nofun⟩

/-- A string whose only other quote is escaped, a literal that is too large, and a quote mark at the
end of a list that is not closed. -/
theorem reading_fails_in_known_ways_of_three_texts :
    (tokens "(a \"b\\\")" = .error (.unterminatedString 3) ∧ ∃ before rest,
      Lexer.Boundary "(a \"b\\\")".toList before ('"' :: rest) ∧ Lexer.Unclosed rest ∧
        before.length = 3) ∧
    (readAll "a -1e400" = .error (.numberOutOfRange "-1e400") ∧ ∃ literal,
      NumberLiteral.read? "-1e400".toList = some literal ∧ literal.value.isInfinite = true) ∧
    let ts : List Token := [⟨.openParen, "("⟩, ⟨.symbol, "a"⟩, ⟨.quote, "'"⟩, .endOfInput]
    tokens "(a '" = .ok ts ∧ read "(a '" = .error .unexpectedEnd ∧
      ∃ before, ts = before ++ [⟨.quote, "'"⟩, Token.endOfInput] := by
  refine ⟨?string, ?number, ?quote⟩
  case string =>
    have failed : tokens "(a \"b\\\")" = .error (.unterminatedString 3) := by rfl
    obtain ⟨lexer, -⟩ := reading_fails_in_known_ways "(a \"b\\\")"
    obtain ⟨before, rest, here, unclosed, same⟩ := (lexer _).mp failed
    exact ⟨failed, before, rest, here, unclosed, (ReadError.unterminatedString.inj same).symm⟩
  case number =>
    have lexed : tokens "a -1e400" = .ok [⟨.symbol, "a"⟩, ⟨.number, "-1e400"⟩, .endOfInput] := by
      rfl
    have failed : readAll "a -1e400" = .error (.numberOutOfRange "-1e400") := by rfl
    obtain ⟨-, -, parser, -⟩ := reading_fails_in_known_ways "a -1e400"
    obtain ⟨-, -, number, -⟩ := parser _ _ lexed (Or.inr failed)
    obtain ⟨text, literal, -, read, infinite, same⟩ := number rfl
    cases same
    exact ⟨failed, literal, read, infinite⟩
  case quote =>
    intro ts
    have lexed : tokens "(a '" = .ok ts := by rfl
    have failed : read "(a '" = .error .unexpectedEnd := by rfl
    obtain ⟨-, -, parser, -⟩ := reading_fails_in_known_ways "(a '"
    obtain ⟨-, -, -, last⟩ := parser _ _ lexed (Or.inl failed)
    exact ⟨lexed, failed, (last rfl).2⟩

end Expr

end ModularLisp
