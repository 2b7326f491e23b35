import ModularLisp.Proofs.Tokens

/-!
# What reading gives

The symbols in a tree that has been read, whether they stand alone or name a module, an export or a
namespace, come from the symbol tokens of the text, the mark of a quote apart; and every literal
that keeps its text denotes an integer, in no more digits than its token has. In particular no
symbol is empty.
-/

namespace ModularLisp

/-- What the trees of a text are made of: the symbols, and whether integer literals may have more
digits than can be converted. -/
structure Vocabulary where
  symbol : String → Prop
  overlong : Prop

variable {words : Vocabulary}

inductive Visibility.NamedFrom (names : String → Prop) : Visibility → Prop
  | all : NamedFrom names .all
  | qualified {qualifier : String} (named : names qualifier) :
    NamedFrom names (.qualified qualifier)
  | only {chosen : List String} (named : ∀ name ∈ chosen, names name) :
    NamedFrom names (.only chosen)

/-- A tree that reading may give from a vocabulary. -/
inductive Expr.ReadFrom (words : Vocabulary) : Expr → Prop
  | number (x : Binary64) : ReadFrom words (.number x)
  | bigNumber {text : String} {n : Int} (denotes : integerText? text = some n)
    (digits : IntegerText.digitCount text ≤ IntegerText.maxDigits ∨ words.overlong) :
    ReadFrom words (.bigNumber text)
  | string (text : String) : ReadFrom words (.string text)
  | boolean (b : Bool) : ReadFrom words (.boolean b)
  | symbol {name : String} (named : words.symbol name) : ReadFrom words (.symbol name)
  | keyword (name : String) : ReadFrom words (.keyword name)
  | list {elements : List Expr} (parts : ∀ e ∈ elements, e.ReadFrom words) :
    ReadFrom words (.list elements)
  | bracket {elements : List Expr} (parts : ∀ e ∈ elements, e.ReadFrom words) :
    ReadFrom words (.bracket elements)
  | moduleDecl {name : String} {exports : List String} {body : List Expr}
    (named : words.symbol name) (exported : ∀ x ∈ exports, words.symbol x)
    (parts : ∀ e ∈ body, e.ReadFrom words) :
    ReadFrom words (.moduleDecl name exports body)
  | importDecl {name : String} (named : words.symbol name) : ReadFrom words (.importDecl name)
  | loadDecl (filename : String) : ReadFrom words (.loadDecl filename)
  | requireDecl (filename : String) {visibility : Visibility}
    (named : visibility.NamedFrom words.symbol) : ReadFrom words (.requireDecl filename visibility)

/-- A tree that reading may give. -/
abbrev Expr.Readable : Expr → Prop := ReadFrom ⟨(· ≠ ""), True⟩

namespace Expr.ReadFrom

theorem symbolName?_named {e : Expr} (readable : e.ReadFrom words) {name : String}
    (symbol : e.symbolName? = some name) : words.symbol name := by
  cases readable with
  | symbol named =>
    cases symbol
    exact named
  | _ => cases symbol

theorem elements? {e : Expr} (readable : e.ReadFrom words) {elements : List Expr}
    (sequence : e.elements? = some elements) : ∀ x ∈ elements, x.ReadFrom words := by
  cases readable with
  | list parts | bracket parts =>
    cases sequence
    exact parts
  | _ => cases sequence

end Expr.ReadFrom

namespace Declaration

theorem symbolNames_named {fault : MalformedForm} {es : List Expr}
    (readable : ∀ e ∈ es, e.ReadFrom words) {found : List String}
    (read : symbolNames fault es = .ok found) : ∀ name ∈ found, words.symbol name := by
  induction es generalizing found with
  | nil =>
    cases read
    exact nofun
  | cons e rest ih =>
    simp only [symbolNames] at read
    cases symbol : e.symbolName? with
    | none => rw [symbol] at read; cases read
    | some name =>
      rw [symbol] at read
      obtain ⟨others, later, rfl⟩ := map_eq_ok read
      refine List.forall_mem_cons.mpr ⟨?_, ?_⟩
      · exact (readable e List.mem_cons_self).symbolName?_named symbol
      · exact ih (fun x member => readable x (List.mem_cons_of_mem e member)) later

theorem exportNames_named {e : Expr} (readable : e.ReadFrom words) {found : List String}
    (read : exportNames e = .ok found) : ∀ name ∈ found, words.symbol name := by
  simp only [exportNames] at read
  split at read
  · split at read
    · cases readable with
      | list parts =>
        exact symbolNames_named (fun x member => parts x (List.mem_cons_of_mem _ member)) read
    · cases read
  · cases read
  · cases read

theorem visibilityOf_named {modifier payload : Expr} (readable : payload.ReadFrom words)
    {visibility : Visibility} (read : visibilityOf modifier payload = .ok visibility) :
    visibility.NamedFrom words.symbol := by
  simp only [visibilityOf] at read
  split at read
  · split at read
    · split at read
      · rename_i symbol
        cases read
        exact .qualified (readable.symbolName?_named symbol)
      · cases read
    · split at read
      · split at read
        · rename_i es sequence
          obtain ⟨chosen, listed, rfl⟩ := map_eq_ok read
          exact .only (symbolNames_named (readable.elements? sequence) listed)
        · cases read
      · cases read
  · cases read

theorem moduleOf_readable {arguments : List Expr}
    (readable : ∀ e ∈ arguments, e.ReadFrom words) {e : Expr}
    (read : moduleOf arguments = .ok e) : e.ReadFrom words := by
  simp only [moduleOf] at read
  split at read
  · rename_i name exports form forms
    obtain ⟨hname, hexports, hbody⟩ : name.ReadFrom words ∧ exports.ReadFrom words ∧
        ∀ x ∈ form :: forms, x.ReadFrom words := by simpa using readable
    split at read
    · rename_i title symbol
      obtain ⟨exported, listed, rfl⟩ := map_eq_ok read
      exact .moduleDecl (hname.symbolName?_named symbol) (exportNames_named hexports listed) hbody
    · cases read
  · cases read

theorem importOf_readable {arguments : List Expr}
    (readable : ∀ e ∈ arguments, e.ReadFrom words) {e : Expr}
    (read : importOf arguments = .ok e) : e.ReadFrom words := by
  simp only [importOf] at read
  split at read
  · cases read
    exact .importDecl ((readable _ List.mem_cons_self).symbolName?_named rfl)
  · cases read
  · cases read

theorem loadOf_readable {arguments : List Expr} {e : Expr} (read : loadOf arguments = .ok e) :
    e.ReadFrom words := by
  simp only [loadOf] at read
  split at read
  · cases read
    exact .loadDecl _
  · cases read
  · cases read

theorem requireOf_readable {arguments : List Expr}
    (readable : ∀ e ∈ arguments, e.ReadFrom words) {e : Expr}
    (read : requireOf arguments = .ok e) : e.ReadFrom words := by
  simp only [requireOf] at read
  split at read
  · cases read
  · split at read
    · cases read
      exact .requireDecl _ .all
    · rename_i filename modifier payload
      obtain ⟨visibility, known, rfl⟩ := map_eq_ok read
      exact .requireDecl _ (visibilityOf_named (readable payload (by simp)) known)
    · cases read
  · cases read

/-- What a parenthesised sequence of readable trees denotes is readable. -/
theorem ofElements_readable {elements : List Expr}
    (readable : ∀ e ∈ elements, e.ReadFrom words) {e : Expr}
    (read : ofElements elements = .ok e) : e.ReadFrom words := by
  have plain : ∀ {e}, Except.ok (ε := MalformedForm) (Expr.list elements) = .ok e →
      e.ReadFrom words := by
    intro e same
    cases same
    exact .list readable
  simp only [ofElements] at read
  split at read
  · rename_i head arguments
    have parts : ∀ e ∈ arguments, e.ReadFrom words := fun x member =>
      readable x (List.mem_cons_of_mem _ member)
    split at read
    · rename_i reader found
      simp only [reader?] at found
      split at found
      · cases found
        exact moduleOf_readable parts read
      · split at found
        · cases found
          exact importOf_readable parts read
        · split at found
          · cases found
            exact loadOf_readable read
          · split at found
            · cases found
              exact requireOf_readable parts read
            · cases found
    · exact plain read
  · exact plain read

end Declaration

/-- A token that may occur from a vocabulary. -/
structure Token.ReadFrom (words : Vocabulary) (t : Token) : Prop where
  symbol : t.kind = .symbol → words.symbol t.text
  number : t.kind = .number → isDecimalLiteral t.text = true
  digits : t.DigitLimited ∨ words.overlong

namespace Parser

def Level.ReadFrom (words : Vocabulary) : Level → Prop
  | .sequence _ reversed => ∀ e ∈ reversed, e.ReadFrom words
  | .quote => True

structure State.ReadFrom (words : Vocabulary) (s : State) : Prop where
  levels : ∀ level ∈ s.levels, level.ReadFrom words
  forms : ∀ e ∈ s.forms, e.ReadFrom words

theorem start_readable : start.ReadFrom words where
  levels := fun _ member => absurd member List.not_mem_nil
  forms := fun _ member => absurd member List.not_mem_nil

section Mark

-- A quote mark stands for a symbol that no token spells.
variable (mark : words.symbol "quote")

include mark

theorem deliver_readable {forms : List Expr} (finished : ∀ e ∈ forms, e.ReadFrom words)
    {levels : List Level} (opened : ∀ level ∈ levels, level.ReadFrom words) {e : Expr}
    (readable : e.ReadFrom words) : (deliver forms levels e).ReadFrom words := by
  induction levels generalizing e with
  | nil => exact ⟨nofun, List.forall_mem_cons.mpr ⟨readable, finished⟩⟩
  | cons level rest ih =>
    obtain ⟨first, later⟩ := List.forall_mem_cons.mp opened
    cases level with
    | quote =>
      refine ih later (.list (List.forall_mem_cons.mpr ⟨.symbol mark, ?_⟩))
      exact List.forall_mem_cons.mpr ⟨readable, nofun⟩
    | sequence enclosure reversed =>
      refine ⟨List.forall_mem_cons.mpr ⟨?_, later⟩, finished⟩
      exact List.forall_mem_cons.mpr ⟨readable, first⟩

omit mark in
theorem numberOf_readable {text : String} (proper : Token.ReadFrom words ⟨.number, text⟩) {e : Expr}
    (read : numberOf text = .ok e) : e.ReadFrom words := by
  unfold numberOf at read
  split at read
  · cases read
  · dsimp only at read
    split at read
    · cases read
    · split at read
      · rename_i long
        cases read
        obtain ⟨n, denotes⟩ := integerText?_of_long (proper.number rfl) long
        exact .bigNumber denotes (proper.digits.imp_left fun limited => limited rfl long)
      · cases read
        exact .number _
  · cases read
    exact .number _

omit mark in
theorem sequenceOf_readable {enclosure : Enclosure} {elements : List Expr}
    (readable : ∀ e ∈ elements, e.ReadFrom words) {e : Expr}
    (denoted : sequenceOf enclosure elements = .ok e) : e.ReadFrom words := by
  cases enclosure with
  | bracket =>
    cases denoted
    exact .bracket readable
  | parenthesis => exact Declaration.ofElements_readable readable (mapError_eq_ok denoted)

omit mark in
theorem booleanOf_readable {text : String} {e : Expr} (read : booleanOf text = .ok e) :
    e.ReadFrom words := by
  simp only [booleanOf] at read
  split at read
  · cases read
    exact .boolean true
  · split at read
    · cases read
      exact .boolean false
    · cases read

theorem close_readable {s t : State} (readable : s.ReadFrom words) {enclosure : Enclosure}
    (closed : s.close enclosure = .ok t) : t.ReadFrom words := by
  simp only [State.close] at closed
  split at closed
  · rename_i opened reversed levels same
    have levelsReadable := readable.levels
    rw [same] at levelsReadable
    obtain ⟨first, later⟩ := List.forall_mem_cons.mp levelsReadable
    have elements : ∀ e ∈ reversed.reverse, e.ReadFrom words := fun e member =>
      first e (List.mem_reverse.mp member)
    split at closed
    · obtain ⟨e, denoted, rfl⟩ := map_eq_ok closed
      exact deliver_readable mark readable.forms later (sequenceOf_readable elements denoted)
    · cases closed
  · cases closed

theorem step_readable {s s' : State} (readable : s.ReadFrom words) {t : Token}
    (proper : t.ReadFrom words) (stepped : step s t = .ok s') : s'.ReadFrom words := by
  have accepted : ∀ {e : Expr}, e.ReadFrom words → (s.accept e).ReadFrom words :=
    deliver_readable mark readable.forms readable.levels
  have nested : ∀ level : Level, level.ReadFrom words → (s.nest level).ReadFrom words :=
    fun _ opened => ⟨List.forall_mem_cons.mpr ⟨opened, readable.levels⟩, readable.forms⟩
  simp only [step] at stepped
  split at stepped
  · rename_i number
    obtain ⟨e, read, rfl⟩ := map_eq_ok stepped
    have literal : Token.ReadFrom words ⟨.number, t.text⟩ := number ▸ proper
    exact accepted (numberOf_readable literal read)
  · cases stepped
    exact accepted (.string _)
  · obtain ⟨e, read, rfl⟩ := map_eq_ok stepped
    exact accepted (booleanOf_readable read)
  · rename_i kind
    cases stepped
    exact accepted (.symbol (proper.symbol kind))
  · cases stepped
    exact accepted (.keyword _)
  · cases stepped
    exact nested (.sequence .parenthesis []) nofun
  · cases stepped
    exact nested (.sequence .bracket []) nofun
  · cases stepped
    exact nested .quote trivial
  · exact close_readable mark readable stepped
  · exact close_readable mark readable stepped
  · cases stepped
    exact readable

theorem foldlM_readable {s s' : State} (readable : s.ReadFrom words) {tokens : List Token}
    (proper : ∀ t ∈ tokens, t.ReadFrom words) (stepped : tokens.foldlM step s = .ok s') :
    s'.ReadFrom words := by
  induction tokens generalizing s with
  | nil =>
    cases stepped
    exact readable
  | cons t rest ih =>
    obtain ⟨first, later⟩ := List.forall_mem_cons.mp proper
    rw [List.foldlM_cons] at stepped
    obtain ⟨between, one, rest⟩ := except_bind_eq_ok stepped
    exact ih (step_readable mark readable first one) later rest

theorem parseAll_readable {tokens : List Token} (proper : ∀ t ∈ tokens, t.ReadFrom words)
    {forms : List Expr} (parsed : parseAll tokens = .ok forms) : ∀ e ∈ forms, e.ReadFrom words := by
  obtain ⟨s, ran, finished⟩ := except_bind_eq_ok parsed
  have kept : ∀ t ∈ untilEnd tokens, t.ReadFrom words := fun t member =>
    proper t (List.takeWhile_subset _ member)
  have readable : s.ReadFrom words := foldlM_readable mark start_readable kept ran
  simp only [finish] at finished
  split at finished
  · cases finished
    exact fun e member => readable.forms e (List.mem_reverse.mp member)
  · cases finished
  · cases finished

end Mark

end Parser

/-- The trees of a text hold no symbols but those of its tokens, and `quote` for a mark. -/
theorem Expr.readAll_readFrom (mark : words.symbol "quote") {source : String} {tokens : List Token}
    (lexed : Token.ofSource source = .ok tokens)
    (named : ∀ t ∈ tokens, t.kind = .symbol → words.symbol t.text)
    (limited : DigitLimited source ∨ words.overlong) {forms : List Expr}
    (read : readAll source = .ok forms) : ∀ e ∈ forms, e.ReadFrom words := by
  obtain ⟨again, same, parsed⟩ := except_bind_eq_ok read
  cases lexed.symm.trans (mapError_eq_ok same)
  have found : tokens ∈ (Token.ofSource source).toOption := by
    rw [lexed]
    rfl
  exact Parser.parseAll_readable mark (fun t member => {
    symbol := named t member
    number := (Token.ofSource_proper lexed t member).number
    digits := limited.imp_left fun all => all tokens found t member }) parsed

/-- Every tree of a source text that can be read is readable. -/
theorem Expr.readAll_readable {source : String} {forms : List Expr}
    (read : readAll source = .ok forms) : ∀ e ∈ forms, e.Readable := by
  obtain ⟨tokens, lexed, -⟩ := except_bind_eq_ok read
  have lexed := mapError_eq_ok lexed
  have named := fun t member => (Token.ofSource_proper lexed t member).symbol
  exact readAll_readFrom (by decide) lexed named (.inr trivial) read

/-- A text may be read in two steps. -/
theorem Expr.readAll_of_tokens {source : String} {forms : List Expr} (ts : List Token)
    (lexed : (Lexer.run source.toList).toOption = some ts)
    (parsed : Parser.parseAll (ts ++ [Token.endOfInput]) = .ok forms) :
    readAll source = .ok forms := by
  have ran : Lexer.run source.toList = .ok ts := by
    cases run : Lexer.run source.toList with
    | error e => rw [run] at lexed; cases lexed
    | ok us => rw [run] at lexed; cases lexed; rfl
  have tokens : Expr.tokens source = .ok (ts ++ [Token.endOfInput]) := by
    simp only [Expr.tokens, Token.ofSource, ran]
    rfl
  rw [readAll, tokens]
  exact parsed

end ModularLisp
