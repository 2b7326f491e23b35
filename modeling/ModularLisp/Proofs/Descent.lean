import ModularLisp.Proofs.Grammar
import ModularLisp.Proofs.Reading

/-!
# Recursive descent and a pushdown scan

The grammar read by procedures that call each other: an expression is taken from the front of the
tokens, a sequence by taking expressions up to its closing token, and what is open lies on the call
stack. These procedures parse as the pass over the tokens does, with the same expressions and the
same errors. Whether they succeed, and which of several faults they report, depends on no
expression: a scan that keeps only what is open tells it.
-/

namespace ModularLisp

open ModularLisp.Parser

namespace Descent

/-- What is left of some tokens when at least one of them has been taken. -/
abbrev Rest (tokens : List Token) : Type := { rest : List Token // rest.length < tokens.length }

def Rest.first (t : Token) (rest : List Token) : Rest (t :: rest) :=
  ⟨rest, Nat.lt_succ_self _⟩

def Rest.behind (t : Token) {tokens : List Token} (rest : Rest tokens) : Rest (t :: tokens) :=
  ⟨rest, rest.2.trans (Nat.lt_succ_self _)⟩

mutual

/-- One expression from the front of the tokens. -/
def expr : (tokens : List Token) → Except ReadError (Expr × Rest tokens)
  | [] => .error .unexpectedEnd
  | t :: rest =>
    match t.kind with
    | .number => (numberOf t.text).map (·, .first t rest)
    | .string => .ok (.string t.text, .first t rest)
    | .boolean => (booleanOf t.text).map (·, .first t rest)
    | .symbol => .ok (.symbol t.text, .first t rest)
    | .keyword => .ok (.keyword t.text, .first t rest)
    | .openParen => do
      let (es, rest) ← elements .parenthesis rest
      (sequenceOf .parenthesis es).map (·, rest.behind t)
    | .openBracket => do
      let (es, rest) ← elements .bracket rest
      (sequenceOf .bracket es).map (·, rest.behind t)
    | .quote => (expr rest).map fun (e, rest) => (quoted e, rest.behind t)
    | .closeParen => .error (.unexpectedClosing .parenthesis)
    | .closeBracket => .error (.unexpectedClosing .bracket)
    | .endOfInput => .error .unexpectedEnd
termination_by tokens => (tokens.length, 0)

/-- The expressions up to the token that closes them. -/
def elements (enclosure : Enclosure) : (tokens : List Token) →
    Except ReadError (List Expr × Rest tokens)
  | [] => .error (.unmatchedOpening enclosure)
  | t :: rest =>
    if t.kind = closing enclosure then .ok ([], .first t rest)
    else if t.kind = .endOfInput then .error (.unmatchedOpening enclosure)
    else do
      let (e, ⟨later, fewer⟩) ← expr (t :: rest)
      let (es, last) ← elements enclosure later
      .ok (e :: es, ⟨last, last.2.trans fewer⟩)
termination_by tokens => (tokens.length, 1)

end

/-- All expressions up to the end of input. -/
def forms : List Token → Except ReadError (List Expr)
  | [] => .ok []
  | t :: rest =>
    if t.kind = .endOfInput then .ok []
    else do
      let (e, ⟨later, fewer⟩) ← expr (t :: rest)
      have : later.length < rest.length + 1 := fewer
      (forms later).map (e :: ·)
termination_by tokens => tokens.length

end Descent

namespace Parser

/-- The pass from a state on. -/
def parseFrom (s : State) (tokens : List Token) : Except ReadError (List Expr) := do
  finish (← (untilEnd tokens).foldlM step s)

/-- No procedure closes the innermost level now: what comes is not its closing token, and it may be
the end only behind a quote. -/
def Awaits : List Level → List Token → Prop
  | .quote :: _, _ => True
  | _, [] => False
  | [], t :: _ => t.kind ≠ .endOfInput
  | .sequence enclosure _ :: _, t :: _ => t.kind ≠ closing enclosure ∧ t.kind ≠ .endOfInput

variable {s : State} {t : Token} {rest : List Token}

theorem parseFrom_end (ends : t.kind = .endOfInput) : parseFrom s (t :: rest) = finish s := by
  simp only [parseFrom, untilEnd, List.takeWhile_cons, ends, ne_eq, not_true, decide_false]
  rfl

theorem parseFrom_cons (inner : t.kind ≠ .endOfInput) :
    parseFrom s (t :: rest) = step s t >>= fun s' => parseFrom s' rest := by
  simp only [parseFrom, untilEnd, List.takeWhile_cons, inner, ne_eq, not_false_eq_true,
    decide_true, if_true, List.foldlM_cons]
  cases step s t <;> rfl

theorem close_of_awaits {enclosure : Enclosure} (awaits : Awaits s.levels (t :: rest))
    (closes : t.kind = closing enclosure) :
    s.close enclosure = .error (.unexpectedClosing enclosure) := by
  obtain ⟨levels, forms⟩ := s
  match levels with
  | [] | .quote :: _ => rfl
  | .sequence opened reversed :: _ =>
    have other : opened ≠ enclosure := by
      rintro rfl
      exact awaits.1 closes
    simp only [State.close, if_neg other]

theorem finish_of_awaits (awaits : Awaits s.levels []) : finish s = .error .unexpectedEnd := by
  obtain ⟨levels, forms⟩ := s
  match levels with
  | .quote :: _ => rfl
  | [] | .sequence _ _ :: _ => exact awaits.elim

theorem finish_of_awaits_end (awaits : Awaits s.levels (t :: rest)) (ends : t.kind = .endOfInput) :
    finish s = .error .unexpectedEnd := by
  obtain ⟨levels, forms⟩ := s
  match levels with
  | .quote :: _ => rfl
  | [] => exact absurd ends awaits
  | .sequence _ _ :: _ => exact absurd ends awaits.2

open Descent

mutual

/-- Where an expression is awaited, the pass goes on with what the procedure takes. -/
theorem parseFrom_expr (s : State) (tokens : List Token) (awaits : Awaits s.levels tokens) :
    parseFrom s tokens = expr tokens >>= fun r => parseFrom (s.accept r.1) r.2 := by
  match tokens with
  | [] =>
    rw [expr]
    exact finish_of_awaits awaits
  | ⟨kind, text⟩ :: rest =>
    by_cases ends : kind = .endOfInput
    · subst ends
      rw [parseFrom_end rfl, expr]
      exact finish_of_awaits_end awaits rfl
    · have enclosed : ∀ enclosure, parseFrom (s.nest (.sequence enclosure [])) rest =
          (elements enclosure rest >>= fun r =>
            (sequenceOf enclosure r.1).map (·, r.2.behind ⟨kind, text⟩)) >>= fun r =>
              parseFrom (s.accept r.1) r.2 := by
        intro enclosure
        refine (parseFrom_elements enclosure s.levels s.forms [] rest).trans ?_
        rcases elements enclosure rest with e | ⟨es, later⟩
        · rfl
        · change (sequenceOf enclosure es >>= _) = (sequenceOf enclosure es).map _ >>= _
          cases sequenceOf enclosure es <;> rfl
      rw [parseFrom_cons ends, expr]
      cases kind with
      | number =>
        simp only [step]
        cases numberOf text <;> rfl
      | boolean =>
        simp only [step]
        cases booleanOf text <;> rfl
      | string | symbol | keyword => rfl
      | openParen => exact enclosed .parenthesis
      | openBracket => exact enclosed .bracket
      | quote =>
        refine (parseFrom_expr (s.nest .quote) rest trivial).trans ?_
        change (expr rest >>= _) = (expr rest).map _ >>= _
        cases expr rest <;> rfl
      | closeParen =>
        change (s.close .parenthesis >>= _) = _
        rw [close_of_awaits awaits rfl]
        rfl
      | closeBracket =>
        change (s.close .bracket >>= _) = _
        rw [close_of_awaits awaits rfl]
        rfl
      | endOfInput => exact absurd rfl ends
termination_by (tokens.length, 0)

theorem parseFrom_elements (enclosure : Enclosure) (levels : List Level)
    (forms reversed : List Expr)
    (tokens : List Token) :
    parseFrom ⟨.sequence enclosure reversed :: levels, forms⟩ tokens =
      elements enclosure tokens >>= fun r =>
        sequenceOf enclosure (reversed.reverse ++ r.1) >>= fun e =>
          parseFrom (deliver forms levels e) r.2 := by
  match tokens with
  | [] =>
    rw [elements]
    rfl
  | t :: rest =>
    rw [elements]
    by_cases closes : t.kind = closing enclosure
    · have inner : t.kind ≠ .endOfInput := by
        rw [closes]
        cases enclosure <;> exact nofun
      have closed : step ⟨.sequence enclosure reversed :: levels, forms⟩ t =
          (sequenceOf enclosure reversed.reverse).map (deliver forms levels) := by
        cases enclosure <;> simp only [step, closes, closing, State.close, if_true]
      rw [if_pos closes, parseFrom_cons inner, closed]
      simp only [bind, Except.bind, List.append_nil]
      cases sequenceOf enclosure reversed.reverse <;> rfl
    · rw [if_neg closes]
      by_cases ends : t.kind = .endOfInput
      · rw [if_pos ends, parseFrom_end ends]
        rfl
      · have awaits : Awaits (.sequence enclosure reversed :: levels) (t :: rest) := ⟨closes, ends⟩
        rw [if_neg ends, parseFrom_expr ⟨_, forms⟩ (t :: rest) awaits]
        rcases expr (t :: rest) with e | ⟨e, later, fewer⟩
        · rfl
        · refine (parseFrom_elements enclosure levels forms (e :: reversed) later).trans ?_
          change (elements enclosure later >>= _) = (elements enclosure later >>= _) >>= _
          rcases elements enclosure later with e | ⟨es, last⟩
          · rfl
          · simp only [bind, Except.bind, List.reverse_cons, List.append_assoc,
              List.singleton_append]
termination_by (tokens.length, 1)

end

theorem parseFrom_forms (finished : List Expr) (tokens : List Token) :
    parseFrom ⟨[], finished⟩ tokens = (forms tokens).map (finished.reverse ++ ·) := by
  match tokens with
  | [] =>
    rw [forms]
    exact congrArg Except.ok (List.append_nil _).symm
  | t :: rest =>
    rw [forms]
    by_cases ends : t.kind = .endOfInput
    · rw [if_pos ends, parseFrom_end ends]
      exact congrArg Except.ok (List.append_nil _).symm
    · rw [if_neg ends, parseFrom_expr ⟨[], finished⟩ (t :: rest) ends]
      rcases expr (t :: rest) with e | ⟨e, later, fewer⟩
      · rfl
      · replace fewer : later.length < rest.length + 1 := fewer
        refine (parseFrom_forms (e :: finished) later).trans ?_
        change _ = ((forms later).map (e :: ·)).map (finished.reverse ++ ·)
        cases forms later with
        | error e => rfl
        | ok es =>
          simp only [Except.map, List.reverse_cons, List.append_assoc, List.singleton_append]
termination_by tokens.length

/-- The procedures read the same expressions as the pass over the tokens, or fail alike. -/
theorem forms_eq_parseAll (tokens : List Token) : forms tokens = parseAll tokens := by
  have whole : parseAll tokens = (forms tokens).map ([] ++ ·) := parseFrom_forms [] tokens
  rw [whole]
  cases forms tokens <;> rfl

end Parser

/-- An open parenthesis or bracket, or a quote that waits for its expression. -/
inductive Pending where
  | opened (enclosure : Enclosure)
  | quote
  deriving DecidableEq, Repr

namespace Scan

/-- A complete expression discharges the quotes on top. -/
def complete : List Pending → List Pending
  | .quote :: stack => complete stack
  | stack => stack

/-- A closing token has to find its own opening on top. -/
def close (enclosure : Enclosure) : List Pending → Except ReadError (List Pending)
  | .opened opened :: stack =>
    if opened = enclosure then .ok (complete stack) else .error (.unexpectedClosing enclosure)
  | _ => .error (.unexpectedClosing enclosure)

def step (stack : List Pending) (t : Token) : Except ReadError (List Pending) :=
  match t.kind with
  | .openParen => .ok (.opened .parenthesis :: stack)
  | .openBracket => .ok (.opened .bracket :: stack)
  | .quote => .ok (.quote :: stack)
  | .closeParen => close .parenthesis stack
  | .closeBracket => close .bracket stack
  | _ => .ok (complete stack)

/-- What is open at the end is an error, and the innermost is the one reported. -/
def verdict : List Pending → Except ReadError Unit
  | [] => .ok ()
  | .quote :: _ => .error .unexpectedEnd
  | .opened enclosure :: _ => .error (.unmatchedOpening enclosure)

/-- One scan from left to right up to the first end mark. -/
def run (tokens : List Token) : Except ReadError Unit := do
  verdict (← (untilEnd tokens).foldlM step [])

end Scan

/-- The symbols that turn a parenthesised sequence into a declaration. -/
def Declaration.heads : List String := ["module", "import", "load", "require"]

/-- A token that is no malformed literal and announces no declaration. -/
structure Token.Harmless (t : Token) : Prop where
  literal : t.kind = .number ∨ t.kind = .boolean → ∃ e, Atom t e
  symbol : t.kind = .symbol → t.text ∉ Declaration.heads

def Expr.Headless (e : Expr) : Prop := ∀ head ∈ Declaration.heads, e ≠ .symbol head

theorem Atom.headless {t : Token} {e : Expr} (atom : Atom t e)
    (harmless : t.Harmless) : e.Headless := by
  intro head known same
  subst same
  cases atom with
  | symbol => exact harmless.symbol rfl known
  | number shape => cases shape

namespace Parser

/-- The level without its elements. -/
def Level.pending : Level → Pending
  | .sequence enclosure _ => .opened enclosure
  | .quote => .quote

def Level.Headless : Level → Prop
  | .sequence _ reversed => ∀ e ∈ reversed, e.Headless
  | .quote => True

def State.pending (s : State) : List Pending := s.levels.map Level.pending

/-- No element of an open sequence announces a declaration. -/
def State.Headless (s : State) : Prop := ∀ level ∈ s.levels, level.Headless

variable {s : State} {t : Token} {e : Expr}

/-- Sequences without declarations always close. -/
theorem sequenceOf_headless (enclosure : Enclosure) (es : List Expr)
    (headless : ∀ e ∈ es, e.Headless) :
    ∃ e, sequenceOf enclosure es = .ok e ∧ e.Headless := by
  cases enclosure with
  | bracket => exact ⟨.bracket es, rfl, fun _ _ => nofun⟩
  | parenthesis =>
    have plain : Declaration.ofElements es = .ok (.list es) := by
      refine Declaration.ofElements_eq_ok_iff.mpr (.list fun head known headed => ?_)
      exact headless _ (List.mem_of_head? headed) head known rfl
    refine ⟨.list es, ?_, fun _ _ => nofun⟩
    rw [sequenceOf, plain]
    rfl

theorem deliver_pending (forms : List Expr) (levels : List Level) (e : Expr) :
    (deliver forms levels e).pending = Scan.complete (levels.map Level.pending) := by
  induction levels generalizing e with
  | nil => rfl
  | cons level rest ih =>
    cases level with
    | sequence => rfl
    | quote => exact ih (quoted e)

theorem deliver_headless (forms : List Expr) {levels : List Level}
    (headless : ∀ level ∈ levels, level.Headless) (alone : e.Headless) :
    (deliver forms levels e).Headless := by
  induction levels generalizing e with
  | nil => exact nofun
  | cons level rest ih =>
    obtain ⟨first, later⟩ := List.forall_mem_cons.mp headless
    cases level with
    | sequence enclosure reversed =>
      exact List.forall_mem_cons.mpr ⟨List.forall_mem_cons.mpr ⟨alone, first⟩, later⟩
    | quote => exact ih later fun _ _ => nofun

/-- A step of the pass and a step of the scan go on alike or fail alike. -/
inductive StepsAlike : Except ReadError State → Except ReadError (List Pending) → Prop
  | ok {s : State} (headless : s.Headless) : StepsAlike (.ok s) (.ok s.pending)
  | error (e : ReadError) : StepsAlike (.error e) (.error e)

theorem accept_alike (headless : s.Headless) (alone : e.Headless) :
    StepsAlike (.ok (s.accept e)) (.ok (Scan.complete s.pending)) := by
  rw [State.pending, ← deliver_pending s.forms]
  exact .ok (deliver_headless s.forms headless alone)

theorem nest_alike (headless : s.Headless) (level : Level) (empty : level.Headless) :
    StepsAlike (.ok (s.nest level)) (.ok (level.pending :: s.pending)) :=
  .ok (s := s.nest level) (List.forall_mem_cons.mpr ⟨empty, headless⟩)

theorem close_alike (headless : s.Headless) (enclosure : Enclosure) :
    StepsAlike (s.close enclosure) (Scan.close enclosure s.pending) := by
  obtain ⟨levels, forms⟩ := s
  match levels, headless with
  | [], _ | .quote :: _, _ => exact .error _
  | .sequence opened reversed :: rest, headless =>
    obtain ⟨first, later⟩ := List.forall_mem_cons.mp headless
    change StepsAlike _ (if opened = enclosure then _ else _)
    simp only [State.close]
    by_cases same : opened = enclosure
    · obtain ⟨e, denoted, alone⟩ := sequenceOf_headless enclosure reversed.reverse
        fun e member => first e (List.mem_reverse.mp member)
      rw [if_pos same, if_pos same, denoted]
      exact accept_alike (s := ⟨rest, forms⟩) later alone
    · rw [if_neg same, if_neg same]
      exact .error _

theorem step_alike (headless : s.Headless) (inner : t.kind ≠ .endOfInput)
    (harmless : t.Harmless) : StepsAlike (step s t) (Scan.step s.pending t) := by
  have taken : ∀ e, Atom t e → StepsAlike (step s t) (.ok (Scan.complete s.pending)) := by
    intro e atom
    rw [step_atom atom]
    exact accept_alike headless (atom.headless harmless)
  obtain ⟨kind, text⟩ := t
  cases kind with
  | number =>
    obtain ⟨e, atom⟩ := harmless.literal (Or.inl rfl)
    exact taken e atom
  | boolean =>
    obtain ⟨e, atom⟩ := harmless.literal (Or.inr rfl)
    exact taken e atom
  | string => exact taken _ (.string text)
  | symbol => exact taken _ (.symbol text)
  | keyword => exact taken _ (.keyword text)
  | openParen => exact nest_alike headless (.sequence .parenthesis []) nofun
  | openBracket => exact nest_alike headless (.sequence .bracket []) nofun
  | quote => exact nest_alike headless .quote trivial
  | closeParen => exact close_alike headless .parenthesis
  | closeBracket => exact close_alike headless .bracket
  | endOfInput => exact absurd rfl inner

theorem finish_verdict (s : State) :
    (finish s).map (fun _ => ()) = Scan.verdict s.pending := by
  obtain ⟨levels, forms⟩ := s
  match levels with
  | [] | .quote :: _ | .sequence _ _ :: _ => rfl

/-- From a state on, the pass fails as the scan of what is open does. -/
theorem foldlM_verdict {tokens : List Token} (headless : s.Headless)
    (inner : ∀ t ∈ tokens, t.kind ≠ .endOfInput) (harmless : ∀ t ∈ tokens, t.Harmless) :
    (tokens.foldlM step s >>= finish).map (fun _ => ()) =
      tokens.foldlM Scan.step s.pending >>= Scan.verdict := by
  induction tokens generalizing s with
  | nil => exact finish_verdict s
  | cons t rest ih =>
    obtain ⟨first, later⟩ := List.forall_mem_cons.mp inner
    obtain ⟨own, others⟩ := List.forall_mem_cons.mp harmless
    have alike := step_alike headless first own
    rw [List.foldlM_cons, List.foldlM_cons]
    generalize step s t = x at alike ⊢
    generalize Scan.step s.pending t = y at alike ⊢
    cases alike with
    | ok headless => exact ih headless later others
    | error e => rfl

/-- Recursive descent gives the verdict of a pushdown scan: for tokens without malformed literals
and declarations the procedures, which parse as the pass does, succeed or report the error of one
scan that keeps a stack of what is open. -/
theorem descent_gives_verdict_of_scan (tokens : List Token)
    (harmless : ∀ t ∈ untilEnd tokens, t.Harmless) :
    Descent.forms tokens = parseAll tokens ∧
      (parseAll tokens).map (fun _ => ()) = Scan.run tokens ∧
      ReadError.unexpectedEnd.message = "unexpected token: end of input" := by
  refine ⟨forms_eq_parseAll tokens, ?_, by rfl⟩
  exact foldlM_verdict (s := start) nofun (fun _ => kind_of_mem_untilEnd) harmless

/-- `( 12 ' [ '` with a closing parenthesis behind the end mark: two openings and two quotes are
left open, and the last quote is reported. -/
theorem descent_gives_verdict_of_scan_of_open_end :
    let tokens : List Token := [⟨.openParen, "("⟩, ⟨.number, "12"⟩, ⟨.quote, "'"⟩,
      ⟨.openBracket, "["⟩, ⟨.quote, "'"⟩, .endOfInput, ⟨.closeParen, ")"⟩]
    (∀ t ∈ untilEnd tokens, t.Harmless) ∧ Scan.run tokens = .error .unexpectedEnd ∧
      Descent.forms tokens = parseAll tokens ∧
      (parseAll tokens).map (fun _ => ()) = .error .unexpectedEnd := by
  intro tokens
  have read : ∃ e, numberOf "12" = .ok e := ⟨_, by rfl⟩
  have harmless : ∀ t ∈ untilEnd tokens, t.Harmless := by
    intro t member
    have known : t ∈ [⟨.openParen, "("⟩, ⟨.number, "12"⟩, ⟨.quote, "'"⟩, ⟨.openBracket, "["⟩,
      ⟨.quote, "'"⟩] := member
    simp only [List.mem_cons, List.not_mem_nil, or_false] at known
    rcases known with rfl | rfl | rfl | rfl | rfl
    · exact ⟨by simp, nofun⟩
    · obtain ⟨e, read⟩ := read
      exact ⟨fun _ => ⟨e, .number (numberOf_eq_ok_iff.mp read)⟩, nofun⟩
    · exact ⟨by simp, nofun⟩
    · exact ⟨by simp, nofun⟩
    · exact ⟨by simp, nofun⟩
  have scanned : Scan.run tokens = .error .unexpectedEnd := by rfl
  obtain ⟨descended, verdict, -⟩ := descent_gives_verdict_of_scan tokens harmless
  exact ⟨harmless, scanned, descended, verdict.trans scanned⟩

end Parser

end ModularLisp
