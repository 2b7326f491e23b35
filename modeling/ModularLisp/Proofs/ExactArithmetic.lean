import Mathlib.Algebra.BigOperators.Group.List.Basic
import Mathlib.Data.Rat.Floor
import ModularLisp.Builtin.Run
import ModularLisp.Proofs.Operands

/-!
# Exact arithmetic

What addition, subtraction, multiplication and the remainder answer to any arguments. Operands that
are taken exactly give the integer that the operation denotes; all other numbers give a number in
floating point, unless one has no rounding or the divisor is zero.
-/

namespace ModularLisp

/-- Flooring division is the division of rationals, rounded down. -/
theorem floor_div_eq_fdiv (a b : Int) : ⌊(a / b : ℚ)⌋ = a.fdiv b := by
  have nonnegative : ∀ (a : Int) (b : Nat), ⌊(a / (b : Int) : ℚ)⌋ = a.fdiv b := by
    intro a b
    rw [Int.cast_natCast, Rat.floor_intCast_div_natCast,
      Int.fdiv_eq_ediv_of_nonneg a (Int.natCast_nonneg b)]
  obtain ⟨n, rfl | rfl⟩ := Int.eq_nat_or_neg b
  · exact nonnegative a n
  · rw [Int.cast_neg, div_neg, ← neg_div, ← Int.cast_neg, nonnegative, ← Int.neg_fdiv_neg, neg_neg]

namespace Builtin

variable {operation : Builtin} {args : List Value} {ns : List Int}

/-- The exact result of an operation on integers. -/
inductive Gives : Builtin → List Int → Except EvalError Int → Prop
  | sum (ns : List Int) : Gives .add ns (.ok ns.sum)
  | product (ns : List Int) : Gives .mul ns (.ok ns.prod)
  | negation (n : Int) : Gives .sub [n] (.ok (-n))
  | difference (n m : Int) (ns : List Int) : Gives .sub (n :: m :: ns) (.ok (n - (m :: ns).sum))
  | remainder (a : Int) {b : Int} (nonzero : b ≠ 0) :
    Gives .mod [a, b] (.ok (a - b * ⌊(a / b : ℚ)⌋))
  | divisionByZero (a : Int) : Gives .mod [a, 0] (.error .divisionByZero)

/-- An exact result as a value. -/
def answer : Except EvalError Int → Except Error Value
  | .ok n => .ok (.bigNumber n)
  | .error e => .error (.eval e)

/-- An error of a kind in place of a value. -/
def FailsWith (kind : ErrorKind) (e : EvalError) (result : Except Error Value) : Prop :=
  result = .error (.eval e) ∧ e.kind = kind

/-- The numbers of arguments that an operation refuses, with the error. -/
inductive RefusesCount : Builtin → Nat → EvalError → Prop
  | sub : RefusesCount .sub 0 (.builtinAtLeast .sub 1)
  | mod {count : Nat} (wrong : count ≠ 2) : RefusesCount .mod count (.builtinExactly .mod 2 count)

def TakesCount (operation : Builtin) (count : Nat) : Prop := ∀ e, ¬ RefusesCount operation count e

def DividesByZero (operation : Builtin) (args : List Value) : Prop :=
  operation = .mod ∧ ∃ a b, args = [a, b] ∧ b.IsInteger 0

theorem run_refusesCount {e : EvalError} (refused : RefusesCount operation args.length e) :
    FailsWith .arity e (operation.run args) := by
  generalize counted : args.length = count at refused
  cases refused with
  | sub =>
    rw [List.eq_nil_of_length_eq_zero counted]
    exact ⟨rfl, rfl⟩
  | mod wrong =>
    have refused : exactly .mod 2 args = .error (.eval (.builtinExactly .mod 2 count)) := by
      rw [exactly, counted, if_neg wrong]
    refine ⟨?_, rfl⟩
    rw [run, modPair, refused]
    rfl

theorem atLeast_of_takes (takes : TakesCount .sub args.length) : atLeast .sub 1 args = .ok () := by
  have some : args.length ≠ 0 := by
    intro none
    rw [none] at takes
    exact takes _ .sub
  rw [atLeast, if_neg (by omega)]

theorem exactly_of_takes (takes : TakesCount .mod args.length) : exactly .mod 2 args = .ok () := by
  rw [exactly, if_pos (Decidable.byContradiction fun wrong => takes _ (.mod wrong))]

/-- Once the arguments are counted, what refuses the operands refuses the operation. -/
theorem run_of_operands_error (four : operation ∈ [.add, .sub, .mul, .mod])
    (takes : TakesCount operation args.length) {e : Error}
    (refused : operands operation args = .error e) : operation.run args = .error e := by
  simp only [List.mem_cons, List.not_mem_nil, or_false] at four
  rcases four with rfl | rfl | rfl | rfl
  · rw [run, addAll, refused]
    rfl
  · rw [run, subAll, atLeast_of_takes takes, refused]
    rfl
  · rw [run, mulAll, refused]
    rfl
  · rw [run, modPair, exactly_of_takes takes, refused]
    rfl

theorem addAll_exact (exact : ExactOperands args ns) : addAll args = .ok (.bigNumber ns.sum) := by
  rw [addAll, operands_exact .add exact, List.sum_eq_foldl]
  rfl

theorem mulAll_exact (exact : ExactOperands args ns) : mulAll args = .ok (.bigNumber ns.prod) := by
  rw [mulAll, operands_exact .mul exact, List.prod_eq_foldl]
  rfl

theorem foldl_sub (n : Int) (ns : List Int) : ns.foldl (· - ·) n = n - ns.sum := by
  induction ns generalizing n with
  | nil => simp
  | cons m rest ih => rw [List.foldl_cons, ih, List.sum_cons, Int.sub_sub]

theorem subAll_exact (exact : ExactOperands args ns) (takes : TakesCount .sub args.length) :
    ∃ r, Gives .sub ns r ∧ subAll args = answer r := by
  have counted := exact.integers.length_eq
  rw [subAll, atLeast_of_takes takes, operands_exact .sub exact]
  match ns with
  | [] => exact absurd .sub (counted ▸ takes _)
  | [n] => exact ⟨_, .negation n, rfl⟩
  | n :: m :: rest =>
    refine ⟨_, .difference n m rest, ?_⟩
    rw [← foldl_sub]
    rfl

theorem modPair_exact (exact : ExactOperands args ns) (takes : TakesCount .mod args.length) :
    ∃ r, Gives .mod ns r ∧ modPair args = answer r := by
  have counted : ns.length = 2 := by
    rw [← exact.integers.length_eq]
    exact Decidable.byContradiction fun wrong => takes _ (.mod wrong)
  obtain ⟨a, b, rfl⟩ := List.length_eq_two.mp counted
  rw [modPair, exactly_of_takes takes, operands_exact .mod exact]
  by_cases zero : b = 0
  · subst zero
    exact ⟨_, .divisionByZero a, rfl⟩
  · refine ⟨_, .remainder a zero, ?_⟩
    rw [floor_div_eq_fdiv, ← Int.fmod_def]
    change (if b = 0 then _ else _) = _
    rw [if_neg zero, intRemainder, if_neg zero]
    rfl

theorem run_exact (four : operation ∈ [.add, .sub, .mul, .mod])
    (takes : TakesCount operation args.length) (exact : ExactOperands args ns) :
    ∃ r, Gives operation ns r ∧ operation.run args = answer r := by
  simp only [List.mem_cons, List.not_mem_nil, or_false] at four
  rcases four with rfl | rfl | rfl | rfl
  · exact ⟨_, .sum ns, addAll_exact exact⟩
  · exact subAll_exact exact takes
  · exact ⟨_, .product ns, mulAll_exact exact⟩
  · exact modPair_exact exact takes

/-- The sum and the product of integers do not depend on their order. -/
theorem run_perm (commutes : operation ∈ [.add, .mul]) (exact : ExactOperands args ns)
    {others : List Value} (permuted : args.Perm others) :
    operation.run others = operation.run args := by
  obtain ⟨ms, exact', same⟩ := exact.perm permuted
  simp only [List.mem_cons, List.not_mem_nil, or_false] at commutes
  rcases commutes with rfl | rfl
  · rw [run, addAll_exact exact, addAll_exact exact', same.sum_eq]
  · rw [run, mulAll_exact exact, mulAll_exact exact', same.prod_eq]

theorem modPair_inexact {xs : List Binary64} (takes : TakesCount .mod args.length)
    (found : operands .mod args = .ok (.inexact xs))
    (rounded : List.Forall₂ Value.RoundsTo args xs) :
    (DividesByZero .mod args ∧ modPair args = .error (.eval .divisionByZero)) ∨
    (¬ DividesByZero .mod args ∧ ∃ x, modPair args = .ok (.number x)) := by
  have counted : args.length = 2 := Decidable.byContradiction fun wrong => takes _ (.mod wrong)
  rw [modPair, exactly_of_takes takes, found]
  obtain ⟨a, b, rfl⟩ := List.length_eq_two.mp counted
  obtain _ | ⟨-, _ | ⟨divisor, ⟨⟩⟩⟩ := rounded
  rename_i x y
  cases zero : y.isZero with
  | true =>
    refine .inl ⟨⟨rfl, a, b, rfl, divisor.isZero_iff.mp zero⟩, ?_⟩
    change (if y.isZero then _ else _) = _
    rw [if_pos zero]
  | false =>
    refine .inr ⟨?_, x % y, ?_⟩
    · rintro ⟨-, _, _, ⟨⟩, none⟩
      rw [divisor.isZero_iff.mpr none] at zero
      cases zero
    · change (if y.isZero then _ else _) = _
      rw [zero, realRemainder, zero]
      rfl

theorem run_inexact (four : operation ∈ [.add, .sub, .mul, .mod])
    (takes : TakesCount operation args.length) {xs : List Binary64}
    (found : operands operation args = .ok (.inexact xs))
    (rounded : List.Forall₂ Value.RoundsTo args xs) :
    (DividesByZero operation args ∧ operation.run args = .error (.eval .divisionByZero)) ∨
    (¬ DividesByZero operation args ∧ ∃ x, operation.run args = .ok (.number x)) := by
  simp only [List.mem_cons, List.not_mem_nil, or_false] at four
  rcases four with rfl | rfl | rfl | rfl
  · refine .inr ⟨fun zero => (nomatch zero.1), ?_⟩
    rw [run, addAll, found]
    exact ⟨_, rfl⟩
  · refine .inr ⟨fun zero => (nomatch zero.1), ?_⟩
    rw [run, subAll, atLeast_of_takes takes, found]
    match xs with
    | [] | [_] | _ :: _ :: _ => exact ⟨_, rfl⟩
  · refine .inr ⟨fun zero => (nomatch zero.1), ?_⟩
    rw [run, mulAll, found]
    exact ⟨_, rfl⟩
  · exact modPair_inexact takes found rounded

/-- A zero divisor is an integer, so a dividend beyond the range makes the operands exact. -/
theorem not_beyondRange_of_dividesByZero (zero : DividesByZero operation args)
    (inexact : ∀ ns, ¬ ExactOperands args ns) : ¬ BeyondRange args := by
  obtain ⟨-, a, b, rfl, none⟩ := zero
  rintro ⟨n, member, beyond⟩
  simp only [List.mem_cons, List.not_mem_nil, or_false] at member
  rcases member with rfl | rfl
  · refine inexact [n, 0] ⟨.cons (Value.isInteger_bigNumber n) (.cons none .nil), n, ?_⟩
    exact List.mem_cons_self
  · have positive := twoPow_pos 1023
    have least := Binary64.rangeEnd_bounds.1
    have same := (Value.isInteger_bigNumber n).unique none
    omega

/-- Arithmetic on any arguments. Their number is checked first and their kinds next. Operands of
which one is of unbounded size and all are integers give the exact result, which for sums and
products does not depend on their order. Other numbers give a number in floating point, except when
one of unbounded size rounds beyond the range or the divisor of a remainder is zero. -/
theorem arithmetic_exact_or_rounded (four : operation ∈ [.add, .sub, .mul, .mod])
    (args : List Value) :
    (∀ e, RefusesCount operation args.length e → FailsWith .arity e (operation.run args)) ∧
    (TakesCount operation args.length →
      (∀ before v after, args = before ++ v :: after → (∀ u ∈ before, u.IsNumber) →
        ¬ v.IsNumber →
        FailsWith .type (.numberExpected operation v.kind) (operation.run args)) ∧
      (∀ ns, ExactOperands args ns → ∃ r, Gives operation ns r ∧ operation.run args = answer r) ∧
      ((∀ v ∈ args, v.IsNumber) → (∀ ns, ¬ ExactOperands args ns) →
        (BeyondRange args →
          FailsWith .evaluation (.operandOutOfRange operation) (operation.run args)) ∧
        (DividesByZero operation args →
          FailsWith .evaluation .divisionByZero (operation.run args)) ∧
        (¬ BeyondRange args → ¬ DividesByZero operation args →
          ∃ x, operation.run args = .ok (.number x)))) ∧
    (operation ∈ [.add, .mul] → ∀ ns, ExactOperands args ns → ∀ others, args.Perm others →
      operation.run others = operation.run args) := by
  refine ⟨fun e refused => run_refusesCount refused, fun takes => ⟨?_, ?_, ?_⟩, ?_⟩
  · rintro before v after rfl numbers other
    exact ⟨run_of_operands_error four takes (operands_refuse operation numbers other), rfl⟩
  · exact fun ns exact => run_exact four takes exact
  · intro numbers inexact
    obtain ⟨beyond, refused⟩ | ⟨within, xs, found, rounded⟩ :=
      operands_cases operation numbers inexact
    · have failed := run_of_operands_error four takes refused
      refine ⟨fun _ => ⟨failed, rfl⟩, fun zero => ?_, fun within => absurd beyond within⟩
      exact absurd beyond (not_beyondRange_of_dividesByZero zero inexact)
    · refine ⟨fun beyond => absurd beyond within, ?_⟩
      obtain ⟨zero, failed⟩ | ⟨nonzero, number⟩ := run_inexact four takes found rounded
      · exact ⟨fun _ => ⟨failed, rfl⟩, fun _ nonzero => absurd zero nonzero⟩
      · exact ⟨fun zero => absurd zero nonzero, fun _ _ => number⟩
  · exact fun commutes ns exact others permuted => run_perm commutes exact permuted

/-- A negative dividend with a divisor in floating point, the least integer that has no rounding
beside a fraction, and a text in front of another value that is no number. -/
theorem arithmetic_exact_or_rounded_of_mixed_kinds :
    let dividend : Int := -(10 ^ 20)
    let half := Binary64.ofRatio false 1 2
    let integers : List Value := [.bigNumber dividend, .number (.ofInt 7)]
    let huge : List Value := [.number half, .bigNumber Binary64.rangeEnd]
    let texts : List Value := [.bigNumber 1, .string "a", .nil]
    (TakesCount .mod integers.length ∧ ExactOperands integers [dividend, 7] ∧
      run .mod integers = .ok (.bigNumber 5)) ∧
    (TakesCount .add huge.length ∧ (∀ v ∈ huge, v.IsNumber) ∧
      (∀ ns, ¬ ExactOperands huge ns) ∧ BeyondRange huge ∧
      FailsWith .evaluation (.operandOutOfRange .add) (run .add huge)) ∧
    (TakesCount .sub texts.length ∧ (Value.bigNumber 1).IsNumber ∧ ¬ (Value.string "a").IsNumber ∧
      FailsWith .type (.numberExpected .sub "string") (run .sub texts)) := by
  intro dividend half integers huge texts
  refine ⟨?_, ?_, ?_⟩
  · have takes : TakesCount .mod integers.length := by
      rintro e ⟨⟩
      contradiction
    have seven : (Value.number (.ofInt 7)).IsInteger 7 :=
      Value.isInteger_number_iff.mpr (by decide +kernel)
    have exact : ExactOperands integers [dividend, 7] :=
      ⟨.cons (Value.isInteger_bigNumber dividend) (.cons seven .nil), dividend,
        List.mem_cons_self⟩
    have four : Builtin.mod ∈ [.add, .sub, .mul, .mod] := by decide
    obtain ⟨-, known, -⟩ := arithmetic_exact_or_rounded four integers
    obtain ⟨r, gives, ran⟩ := (known takes).2.1 _ exact
    refine ⟨takes, exact, ran.trans ?_⟩
    cases gives with
    | remainder nonzero =>
      have value : dividend - 7 * dividend.fdiv 7 = 5 := by decide +kernel
      rw [floor_div_eq_fdiv, value]
      rfl
  · have numbers : ∀ v ∈ huge, v.IsNumber :=
      List.forall_mem_cons.mpr ⟨rfl, List.forall_mem_singleton.mpr rfl⟩
    have fraction : half.toInt? = none := by decide +kernel
    have inexact : ∀ ns, ¬ ExactOperands huge ns := by
      intro ns exact
      obtain ⟨n, rest, integer, -⟩ := List.forall₂_cons_left_iff.mp exact.integers
      rw [Value.isInteger_number_iff, fraction] at integer
      cases integer
    have beyond : BeyondRange huge :=
      ⟨Binary64.rangeEnd, List.mem_cons_of_mem _ List.mem_cons_self, Nat.le_refl _⟩
    have takes : TakesCount .add huge.length := by rintro e ⟨⟩
    have four : Builtin.add ∈ [.add, .sub, .mul, .mod] := by decide
    obtain ⟨-, known, -⟩ := arithmetic_exact_or_rounded four huge
    exact ⟨takes, numbers, inexact, beyond, ((known takes).2.2 numbers inexact).1 beyond⟩
  · have takes : TakesCount .sub texts.length := by rintro e ⟨⟩
    have number : (Value.bigNumber 1).IsNumber := rfl
    have text : ¬ (Value.string "a").IsNumber := Bool.false_ne_true
    have four : Builtin.sub ∈ [.add, .sub, .mul, .mod] := by decide
    obtain ⟨-, known, -⟩ := arithmetic_exact_or_rounded four texts
    exact ⟨takes, number, text,
      (known takes).1 [.bigNumber 1] (.string "a") [.nil] rfl (by simp [number]) text⟩

end Builtin

end ModularLisp
