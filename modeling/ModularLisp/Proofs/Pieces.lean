import ModularLisp.Proofs.Grammar
import ModularLisp.Proofs.Spelling

/-!
# Pieces of written text

Characters that write tokens wherever no word stands right in front of them can be put together:
side by side behind a blank, in parentheses, or behind a quote mark. A text that writes the tokens
of one expression is read as that expression.
-/

namespace ModularLisp

theorem Gap.append {cs ds : List Char} (first : Gap cs) (second : Gap ds) : Gap (cs ++ ds) := by
  induction first with
  | nil => exact second
  | blank blank _ ih => exact .blank blank ih
  | comment line _ ih =>
    rw [List.cons_append, List.append_assoc]
    exact .comment line ih

theorem LastGap.behind {cs ds : List Char} (gap : Gap cs) (last : LastGap ds) :
    LastGap (cs ++ ds) := by
  cases last with
  | gap second => exact .gap (gap.append second)
  | comment second line =>
    rw [← List.append_assoc]
    exact .comment (gap.append second) line

namespace Written

variable {ts : List Token} {cs gap : List Char}

/-- What may stand behind a word may stand anywhere. -/
theorem anywhere (written : Written true ts cs) (afterAtom : Bool) : Written afterAtom ts cs := by
  cases written with
  | nil last => exact .nil last
  | cons between apart spelled rest => exact .cons between (fun _ => apart rfl) spelled rest

/-- A gap that is not empty ends a word. -/
theorem behind (between : Gap gap) (nonempty : gap ≠ []) {afterAtom : Bool}
    (written : Written afterAtom ts cs) : Written true ts (gap ++ cs) := by
  cases written with
  | nil last => exact .nil (last.behind between)
  | cons second _ spelled rest =>
    rw [← List.append_assoc]
    refine .cons (between.append second) (fun _ _ => ?_) spelled rest
    exact List.append_ne_nil_of_left_ne_nil nonempty _

end Written

/-- Characters that write tokens where no word stands in front, whatever follows that may follow a
word. -/
def Piece (ts : List Token) (cs : List Char) : Prop :=
  ∀ us rest, Written true us rest → Written false (ts ++ us) (cs ++ rest)

namespace Piece

variable {ts us : List Token} {cs ds : List Char}

theorem nil : Piece [] [] := fun _ _ rest => rest.anywhere false

theorem token {t : Token} (spelled : t.Spelling cs) : Piece [t] cs := fun _ _ rest =>
  .cons .nil nofun spelled (rest.anywhere _)

theorem spaced (first : Piece ts cs) (second : Piece us ds) :
    Piece (ts ++ us) (cs ++ ' ' :: ds) := by
  intro later rest written
  have blank : Gap [' '] := .blank (by decide) .nil
  have behind := (second later rest written).behind blank (List.cons_ne_nil _ _)
  rw [List.append_assoc, List.append_assoc]
  exact first _ _ behind

theorem enclosed (inside : Piece ts cs) :
    Piece (⟨.openParen, "("⟩ :: ts ++ [⟨.closeParen, ")"⟩]) ('(' :: cs ++ [')']) := by
  intro later rest written
  have closing : Written true (⟨.closeParen, ")"⟩ :: later) ([] ++ (")".toList ++ rest)) :=
    .cons .nil nofun (.plain (by decide)) (written.anywhere false)
  have opening : Written false (⟨.openParen, "("⟩ :: (ts ++ ⟨.closeParen, ")"⟩ :: later))
      ([] ++ ("(".toList ++ (cs ++ ')' :: rest))) :=
    .cons .nil nofun (.plain (by decide)) (inside _ _ closing)
  rw [List.append_assoc, List.append_assoc]
  exact opening

theorem quoted (inside : Piece ts cs) : Piece (⟨.quote, "'"⟩ :: ts) ('\x27' :: cs) := by
  intro later rest written
  have marked : Written false (⟨.quote, "'"⟩ :: (ts ++ later))
      ([] ++ ("'".toList ++ (cs ++ rest))) :=
    .cons .nil nofun (.plain (by decide)) (inside _ _ written)
  exact marked

end Piece

namespace Expr

theorem read_eq_ok_iff {source : String} {e : Expr} :
    read source = .ok e ↔ readAll source = .ok [e] := by
  rw [read, readAll]
  cases tokens source with
  | error e => exact iff_of_false nofun nofun
  | ok ts => exact Parser.parse_eq_ok_iff

theorem tokens_of_piece {ts : List Token} {source : String} (piece : Piece ts source.toList)
    (printable : ∀ t ∈ ts, t.Printable) : tokens source = .ok (ts ++ [Token.endOfInput]) := by
  have written := piece [] [] (.nil (.gap .nil))
  rw [List.append_nil, List.append_nil] at written
  rw [tokens, Token.ofSource_written written printable]
  rfl

theorem readAll_of_piece {ts : List Token} {source : String} {e : Expr}
    (piece : Piece ts source.toList) (printable : ∀ t ∈ ts, t.Printable) (derives : Derives ts e) :
    readAll source = .ok [e] := by
  have inner : ∀ t ∈ ts, t.kind ≠ .endOfInput := fun t member =>
    (printable t member).kind_ne_endOfInput
  rw [readAll, tokens_of_piece piece printable]
  refine Parser.parseAll_eq_ok_iff.mpr ?_
  rw [Parser.untilEnd_append inner, Parser.untilEnd_end, List.append_nil]
  exact derives.alone

theorem read_of_piece {ts : List Token} {source : String} {e : Expr}
    (piece : Piece ts source.toList) (printable : ∀ t ∈ ts, t.Printable) (derives : Derives ts e) :
    read source = .ok e :=
  read_eq_ok_iff.mpr (readAll_of_piece piece printable derives)

end Expr

end ModularLisp
