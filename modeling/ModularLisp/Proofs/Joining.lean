import ModularLisp.Proofs.Grammar
import ModularLisp.Proofs.Reading
import ModularLisp.Proofs.Requires
import ModularLisp.Proofs.Sessions

/-!
# Texts one after the other

Behind a newline the lexer and the parser start anew: what they have found before stays, and only
positions remember it. So a text joined from two is read as the two are, and evaluated as if they
were evaluated in turn.
-/

namespace ModularLisp

namespace Lexer

def Mode.shift (n : Nat) : Mode → Mode
  | .string start reversed => .string (start + n) reversed
  | .escape start reversed => .escape (start + n) reversed
  | mode => mode

/-- The state behind `n` more characters, with the tokens that these gave. -/
def State.behind (s : State) (n : Nat) (older : List Token) : State :=
  ⟨s.position + n, s.mode.shift n, s.tokens ++ older⟩

variable (n : Nat) (older : List Token)

theorem begin_behind (position : Nat) (tokens : List Token) (c : Char) :
    begin (position + n) (tokens ++ older) c =
      ((begin position tokens c).1.shift n, (begin position tokens c).2 ++ older) := by
  rw [begin, begin]
  split_ifs with blank comment string
  · rfl
  · rfl
  · rfl
  · split <;> rfl

theorem next_behind (s : State) (c : Char) :
    next (s.behind n older) c = ((next s c).1.shift n, (next s c).2 ++ older) := by
  obtain ⟨position, mode, tokens⟩ := s
  cases mode with
  | gap => exact begin_behind n older position tokens c
  | comment =>
    dsimp only [State.behind, Mode.shift, next]
    split <;> rfl
  | atom reversed =>
    dsimp only [State.behind, Mode.shift, next]
    split
    · rfl
    · exact begin_behind n older position (atomToken reversed :: tokens) c
  | string start reversed =>
    dsimp only [State.behind, Mode.shift, next]
    split_ifs <;> rfl
  | escape start reversed => rfl

theorem step_behind (s : State) (c : Char) :
    step (s.behind n older) c = (step s c).behind n older := by
  simp only [step, next_behind]
  simp only [State.behind, Nat.add_right_comm]

theorem foldl_behind (s : State) (cs : List Char) :
    cs.foldl step (s.behind n older) = (cs.foldl step s).behind n older := by
  induction cs generalizing s with
  | nil => rfl
  | cons c rest ih => rw [List.foldl_cons, step_behind, ih, List.foldl_cons]

theorem finish_behind (s : State) :
    finish (s.behind n older) = match finish s with
      | .ok tokens => .ok (older.reverse ++ tokens)
      | .error e => .error ⟨e.position + n⟩ := by
  obtain ⟨position, mode, tokens⟩ := s
  cases mode <;> simp [State.behind, Mode.shift, finish]

/-- A newline ends whatever may end a text. -/
theorem step_newline_of_finish {s : State} {ts : List Token} (finished : finish s = .ok ts) :
    step s '\n' = ⟨s.position + 1, .gap, ts.reverse⟩ := by
  obtain ⟨position, mode, tokens⟩ := s
  cases mode with
  | gap | comment | atom =>
    cases finished
    simp only [List.reverse_reverse]
    rfl
  | string | escape => cases finished

theorem run_joined {cs : List Char} {ts : List Token} (ran : run cs = .ok ts) (ds : List Char) :
    run (cs ++ '\n' :: ds) = match run ds with
      | .ok us => .ok (ts ++ us)
      | .error e => .error ⟨e.position + (cs.length + 1)⟩ := by
  have seam : step (cs.foldl step start) '\n' = start.behind (cs.length + 1) ts.reverse := by
    rw [step_newline_of_finish ran, position_foldl]
    simp only [State.behind, start, Mode.shift, List.nil_append, Nat.zero_add]
  rw [run_append, List.foldl_cons, seam, foldl_behind, finish_behind, List.reverse_reverse, run]

end Lexer

namespace Parser

/-- The state with `older` forms finished before, which are in reverse order too. -/
def State.onto (s : State) (older : List Expr) : State := ⟨s.levels, s.forms ++ older⟩

variable (older : List Expr)

theorem deliver_onto (forms : List Expr) (levels : List Level) (e : Expr) :
    deliver (forms ++ older) levels e = (deliver forms levels e).onto older := by
  induction levels generalizing e with
  | nil => rfl
  | cons level rest ih =>
    cases level with
    | quote => exact ih (quoted e)
    | sequence => rfl

theorem accept_onto (s : State) (e : Expr) :
    (s.onto older).accept e = (s.accept e).onto older :=
  deliver_onto older s.forms s.levels e

theorem close_onto (s : State) (enclosure : Enclosure) :
    (s.onto older).close enclosure = (s.close enclosure).map (·.onto older) := by
  obtain ⟨levels, forms⟩ := s
  match levels with
  | [] | .quote :: _ => rfl
  | .sequence opened reversed :: levels =>
    simp only [State.onto, State.close]
    split
    · cases sequenceOf enclosure reversed.reverse with
      | error e => rfl
      | ok e => exact congrArg Except.ok (deliver_onto older forms levels e)
    · rfl

theorem step_onto (s : State) (t : Token) :
    step (s.onto older) t = (step s t).map (·.onto older) := by
  have accepted : ∀ r : Except ReadError Expr,
      r.map (s.onto older).accept = (r.map s.accept).map (·.onto older) := by
    intro r
    cases r with
    | error e => rfl
    | ok e => exact congrArg Except.ok (accept_onto older s e)
  obtain ⟨kind, text⟩ := t
  cases kind with
  | number => exact accepted (numberOf text)
  | boolean => exact accepted (booleanOf text)
  | string => exact accepted (.ok (.string text))
  | symbol => exact accepted (.ok (.symbol text))
  | keyword => exact accepted (.ok (.keyword text))
  | openParen | openBracket | quote | endOfInput => rfl
  | closeParen => exact close_onto older s .parenthesis
  | closeBracket => exact close_onto older s .bracket

theorem foldlM_onto (s : State) (tokens : List Token) :
    tokens.foldlM step (s.onto older) = (tokens.foldlM step s).map (·.onto older) := by
  induction tokens generalizing s with
  | nil => rfl
  | cons t rest ih =>
    rw [List.foldlM_cons, List.foldlM_cons, step_onto]
    cases step s t with
    | error e => rfl
    | ok s => exact ih s

theorem finish_onto (s : State) :
    finish (s.onto older) = (finish s).map (older.reverse ++ ·) := by
  obtain ⟨levels, forms⟩ := s
  match levels with
  | [] => simp [State.onto, finish, Except.map]
  | .quote :: _ | .sequence _ _ :: _ => rfl

/-- Behind complete forms parsing goes on as from the start. -/
theorem parseAll_append {ts : List Token} {es : List Expr}
    (inner : ∀ t ∈ ts, t.kind ≠ .endOfInput) (parsed : parseAll (ts ++ [Token.endOfInput]) = .ok es)
    (us : List Token) : parseAll (ts ++ us) = (parseAll us).map (es ++ ·) := by
  obtain ⟨s, ran, finished⟩ := except_bind_eq_ok parsed
  rw [untilEnd_append inner, untilEnd_end, List.append_nil] at ran
  have state : s = start.onto es.reverse := finish_eq_ok_iff.mp finished
  simp only [parseAll, untilEnd_append inner, List.foldlM_append, ran, state]
  change ((untilEnd us).foldlM step (start.onto es.reverse) >>= finish) = _
  rw [foldlM_onto]
  cases (untilEnd us).foldlM step start with
  | error e => rfl
  | ok u => exact (finish_onto es.reverse u).trans (by rw [List.reverse_reverse]; rfl)

end Parser

namespace Expr

theorem readAll_eq (source : String) :
    readAll source = match Lexer.run source.toList with
      | .ok ts => Parser.parseAll (ts ++ [Token.endOfInput])
      | .error e => .error (.unterminatedString e.position) := by
  simp only [readAll, tokens, Token.ofSource]
  cases Lexer.run source.toList <;> rfl

theorem readAll_joined {first : String} {forms : List Expr} (read : readAll first = .ok forms)
    (second : String) :
    readAll (first ++ "\n" ++ second) = match Lexer.run second.toList with
      | .ok us => (Parser.parseAll (us ++ [Token.endOfInput])).map (forms ++ ·)
      | .error e => .error (.unterminatedString (e.position + (first.length + 1))) := by
  rw [readAll_eq] at read
  split at read
  · rename_i ts ran
    have inner : ∀ t ∈ ts, t.kind ≠ .endOfInput := fun t member =>
      (Lexer.run_printable ran t member).kind_ne_endOfInput
    have chars : (first ++ "\n" ++ second).toList = first.toList ++ '\n' :: second.toList := by
      simp
    rw [readAll_eq, chars, Lexer.run_joined ran]
    cases Lexer.run second.toList with
    | error e => simp only [String.length_toList]
    | ok us =>
      simp only [List.append_assoc]
      exact Parser.parseAll_append inner read _
  · cases read

end Expr

namespace Session

/-- The end of evaluating two texts in turn: the second one is evaluated only if the first one gave
a value, and if it has no form that value stays. -/
inductive InTurn (loader : Option Loader) (fuel : Nat) (s : Session) (index : Nat)
    (first second : String) : Outcome → Session → Prop
  | failed {e : Error} {t : Session} (ended : s.eval loader fuel index first = (.error e, t)) :
    InTurn loader fuel s index first second (.error e) t
  | kept {v : Value} {t : Session} (ended : s.eval loader fuel index first = (.value v, t))
    (blank : Expr.readAll second = .ok []) : InTurn loader fuel s index first second (.value v) t
  | both {v : Value} {o : Outcome} {t u : Session}
    (ended : s.eval loader fuel index first = (.value v, t))
    (forms : Expr.readAll second ≠ .ok []) (later : t.eval loader fuel index second = (o, u)) :
    InTurn loader fuel s index first second o u

variable {loader : Option Loader} {fuel index : Nat} {s u : Session} {i : Interpreter}
  {first second : String} {forms others : List Expr} {v : Value} {t : State} {o : Outcome}

theorem update_update (t' : State) :
    (s.update index i t).update index { i with progress := t.progress } t' =
      s.update index i t' := by
  simp only [update, Array.setIfInBounds_setIfInBounds]

/-- What interpreter `index` answers and leaves when its forms have come to a result. -/
def ending (s : Session) (index : Nat) (i : Interpreter) : Result Value → Outcome × Session
  | .ok v t => (.value v, s.update index i t)
  | .error e t => (.error e, s.update index i t)
  | .outOfFuel => (.outOfFuel, s)

theorem eval_of_read (loader : Option Loader) (fuel : Nat) (found : s.interpreters[index]? = some i)
    (read : Expr.readAll first = .ok forms) : s.eval loader fuel index first =
      s.ending index i (Evaluation.evalForms loader fuel i.root forms (s.stateOf i)) := by
  simp only [eval, perform, found, evalSource, read]
  cases Evaluation.evalForms loader fuel i.root forms (s.stateOf i) <;> rfl

theorem eval_absent (absent : s.interpreters[index]? = none) (source : String) :
    s.eval loader fuel index source = (.value .nil, s) := by
  simp only [eval, perform, absent]

/-- Behind the first text the second one goes on from the state that the first one has left. -/
theorem eval_later (found : s.interpreters[index]? = some i)
    (registered : i.registry < s.registries.size) (read : Expr.readAll second = .ok others)
    (ended : o ≠ .outOfFuel) : (s.update index i t).eval loader fuel index second = (o, u) ↔
      s.ending index i (Evaluation.evalForms loader fuel i.root others t) = (o, u) := by
  have inside := (Array.getElem?_eq_some_iff.mp found).1
  have again : (s.update index i t).interpreters[index]? =
      some { i with progress := t.progress } := Array.getElem?_setIfInBounds_self_of_lt inside
  rw [eval_of_read loader fuel again read, stateOf_update_self registered]
  cases Evaluation.evalForms loader fuel i.root others t with
  | ok w t' => simp only [ending, update_update]
  | error e t' => simp only [ending, update_update]
  | outOfFuel =>
    have lacking : ∀ x : Session, (.outOfFuel, x) ≠ (o, u) := by
      rintro x ⟨⟩
      exact ended rfl
    exact iff_of_false (lacking _) (lacking _)

theorem inTurn_of_value {r : Session} (ended : s.eval loader fuel index first = (.value v, r))
    (read : Expr.readAll second = .ok others) : InTurn loader fuel s index first second o u ↔
      if others = [] then (.value v, r) = (o, u) else r.eval loader fuel index second = (o, u) := by
  have blank : Expr.readAll second = .ok [] ↔ others = [] := by rw [read, Except.ok.injEq]
  constructor
  · rintro (failed | ⟨again, none⟩ | ⟨again, some, later⟩)
    · cases ended.symm.trans failed
    · rw [if_pos (blank.mp none)]
      exact ended.symm.trans again
    · rw [if_neg (mt blank.mpr some)]
      cases ended.symm.trans again
      exact later
  · split_ifs with none
    · rintro ⟨⟩
      exact .kept ended (blank.mpr none)
    · exact .both ended (mt blank.mp none)

theorem eval_joined (registered : ∀ i ∈ s.interpreters, i.registry < s.registries.size)
    (readFirst : Expr.readAll first = .ok forms) (readSecond : Expr.readAll second = .ok others)
    (readBoth : Expr.readAll (first ++ "\n" ++ second) = .ok (forms ++ others))
    (ended : o ≠ .outOfFuel) : s.eval loader fuel index (first ++ "\n" ++ second) = (o, u) ↔
      InTurn loader fuel s index first second o u := by
  cases found : s.interpreters[index]? with
  | none =>
    rw [inTurn_of_value (eval_absent found first) readSecond, eval_absent found,
      eval_absent found, ite_self]
  | some i =>
    have one := eval_of_read loader fuel found readFirst
    have both := eval_of_read loader fuel found readBoth
    have split : Evaluation.evalForms loader fuel i.root (forms ++ others) (s.stateOf i) =
        (Evaluation.evalForms loader fuel i.root forms >>= fun v =>
          Evaluation.evalBody (Evaluation.eval loader fuel) i.root v others) (s.stateOf i) :=
      congrFun (Evaluation.evalBody_append i.root .nil forms others) _
    cases evaluated : Evaluation.evalForms loader fuel i.root forms (s.stateOf i) with
    | outOfFuel =>
      rw [evaluated] at one
      rw [both, split.trans (Action.bind_outOfFuel evaluated)]
      constructor
      · rintro ⟨⟩
        exact absurd rfl ended
      · rintro (failed | ⟨again, -⟩ | ⟨again, -, -⟩)
        · cases one.symm.trans failed
        · cases one.symm.trans again
        · cases one.symm.trans again
    | error e t =>
      rw [evaluated] at one
      rw [both, split.trans (Action.bind_error evaluated)]
      constructor
      · rintro ⟨⟩
        exact .failed one
      · rintro (failed | ⟨again, -⟩ | ⟨again, -, -⟩)
        · exact one.symm.trans failed
        · cases one.symm.trans again
        · cases one.symm.trans again
    | ok v t =>
      rw [evaluated] at one
      rw [both, split.trans (Action.bind_ok evaluated),
        inTurn_of_value one readSecond]
      cases others with
      | nil => rfl
      | cons e rest =>
        -- With a form to come, the value so far does not count.
        have here := registered i (Array.mem_of_getElem? found)
        rw [if_neg (List.cons_ne_nil e rest), eval_later found here readSecond ended]
        rfl

end Session

/-- If the first of two texts can be read, then the text joined from them by a newline gives the
forms of both, or else the error of the second, whose position counts from the start of the first;
and if both can be read, evaluating the joined text ends as evaluating the two in turn does. -/
theorem reading_is_compositional {first : String} {forms : List Expr}
    (read : Expr.readAll first = .ok forms) (second : String) :
    (∀ others, Expr.readAll second = .ok others →
      Expr.readAll (first ++ "\n" ++ second) = .ok (forms ++ others) ∧
      ∀ (s : Session), s.Reachable → ∀ (loader : Option Loader) (fuel index : Nat) (o : Outcome)
        (u : Session), o ≠ .outOfFuel →
        (s.eval loader fuel index (first ++ "\n" ++ second) = (o, u) ↔
          s.InTurn loader fuel index first second o u)) ∧
    (∀ tokens e, Token.ofSource second = .ok tokens → Expr.readAll second = .error e →
      Expr.readAll (first ++ "\n" ++ second) = .error e) ∧
    ∀ position, Token.ofSource second = .error ⟨position⟩ →
      Expr.readAll second = .error (.unterminatedString position) ∧
      Expr.readAll (first ++ "\n" ++ second) =
        .error (.unterminatedString (position + (first.length + 1))) := by
  have joined := Expr.readAll_joined read second
  have alone := Expr.readAll_eq second
  simp only [Token.ofSource]
  cases ran : Lexer.run second.toList with
  | error e =>
    rw [ran] at joined alone
    refine ⟨fun others read => ?_, fun ts e' lexed => ?_, ?_⟩
    · cases alone.symm.trans read
    · cases lexed
    · rintro position ⟨⟩
      exact ⟨alone, joined⟩
  | ok us =>
    rw [ran] at joined alone
    dsimp only at joined alone
    rw [← alone] at joined
    refine ⟨fun others read' => ?_, fun _ e _ failed => ?_, fun position unlexed => ?_⟩
    · rw [read'] at joined
      exact ⟨joined, fun s reachable _ _ _ _ _ ended =>
        Session.eval_joined reachable.registered read read' joined ended⟩
    · rw [joined, failed]
      rfl
    · cases unlexed

/-- A first text that ends in a comment, before texts that fail when they are evaluated, parsed and
split into tokens. -/
theorem reading_is_compositional_behind_comment :
    let first := "(define x 'a) ; b"
    let definition : Expr :=
      .list [.symbol "define", .symbol "x", .list [.symbol "quote", .symbol "a"]]
    let s := Session.start false 1
    let (o, u) := s.eval none 4 0 (first ++ "\n" ++ "x y")
    Expr.readAll first = .ok [definition] ∧
      Expr.readAll (first ++ "\n" ++ "x y") = .ok [definition, .symbol "x", .symbol "y"] ∧
      o.errorKind? = some .unboundSymbol ∧ s.InTurn none 4 0 first "x y" o u ∧
      Expr.readAll (first ++ "\n" ++ "x)") = .error (.unexpectedClosing .parenthesis) ∧
      Expr.readAll (first ++ "\n" ++ "x \"") = .error (.unterminatedString 20) := by
  intro first definition s
  have read : Expr.readAll first = .ok [definition] :=
    Expr.readAll_of_tokens [⟨.openParen, "("⟩, ⟨.symbol, "define"⟩, ⟨.symbol, "x"⟩, ⟨.quote, "'"⟩,
      ⟨.symbol, "a"⟩, ⟨.closeParen, ")"⟩] (by decide +kernel) rfl
  have readSecond : Expr.readAll "x y" = .ok [.symbol "x", .symbol "y"] :=
    Expr.readAll_of_tokens [⟨.symbol, "x"⟩, ⟨.symbol, "y"⟩] (by decide +kernel) rfl
  have failed : (s.eval none 4 0 (first ++ "\n" ++ "x y")).1.errorKind? = some .unboundSymbol := by
    decide +kernel
  have ended : (s.eval none 4 0 (first ++ "\n" ++ "x y")).1 ≠ .outOfFuel := by
    intro lacking
    rw [lacking] at failed
    cases failed
  have lexed : Token.ofSource "x)" = .ok [⟨.symbol, "x"⟩, ⟨.closeParen, ")"⟩, .endOfInput] := by
    decide +kernel
  have unread : Expr.readAll "x)" = .error (.unexpectedClosing .parenthesis) := by
    rw [Expr.readAll, Expr.tokens, lexed]
    rfl
  have length : first.length = 17 := by decide
  have unclosed : Expr.readAll (first ++ "\n" ++ "x \"") = .error (.unterminatedString 20) := by
    have behind := ((reading_is_compositional read "x \"").2.2 2 (by decide +kernel)).2
    rwa [length] at behind
  obtain ⟨both, evaluated⟩ :=
    (reading_is_compositional read "x y").1 _ readSecond
  refine ⟨read, both, failed, ?_, ?_, ?_⟩
  · exact (evaluated s (Session.reachable_start false 1) none 4 0 _ _ ended).mp rfl
  · exact (reading_is_compositional read "x)").2.1 _ _ lexed unread
  · exact unclosed

end ModularLisp
