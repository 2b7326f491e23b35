import Mathlib.Data.List.Perm.Basic
import ModularLisp.Proofs.Domains
import ModularLisp.Proofs.ExactValues

/-!
# Operands of arithmetic

What the arguments of an operation decide before anything is computed. The first that is no number
is refused. Numbers are taken exactly if one of unbounded size is among them and each is an integer,
and rounded otherwise; then one beyond the range is refused. Rounding makes a zero only of a zero.
-/

namespace ModularLisp

theorem Binary64.isZero_iff {x : Binary64} : x.isZero = true ↔ x.toInt? = some 0 := by
  constructor
  · intro zero
    cases x with
    | nan | infinity => cases zero
    | finite negative mantissa exponent canonical =>
      cases mantissa with
      | zero =>
        have size : magnitude 0 exponent = 0 := Nat.zero_mul _
        have units : (finite negative 0 exponent canonical).units? = some 0 := by
          rw [units?, size]
          cases negative <;> rfl
        rw [toInt?, units, Option.bind_some, Int.zero_emod, if_pos rfl, Int.zero_ediv]
      | succ m => cases zero
  · intro integral
    have known := units?_of_toInt? integral
    cases x with
    | nan | infinity => cases known
    | finite negative mantissa exponent canonical =>
      have none : magnitude mantissa exponent = 0 := by
        simp only [units?, Int.zero_mul, Option.some.injEq] at known
        split at known <;> omega
      cases mantissa with
      | zero => rfl
      | succ m => exact absurd none (Nat.ne_of_gt (Nat.mul_pos (Nat.succ_pos m) (twoPow_pos _)))

/-- A number in floating point; an integer is within the range. -/
inductive Value.RoundsTo : Value → Binary64 → Prop
  | number (x : Binary64) : RoundsTo (.number x) x
  | bigNumber {n : Int} {x : Binary64} (within : Binary64.ofInt? n = some x) :
    RoundsTo (.bigNumber n) x

theorem Value.RoundsTo.isZero_iff {v : Value} {x : Binary64} (rounded : v.RoundsTo x) :
    x.isZero = true ↔ v.IsInteger 0 := by
  cases rounded with
  | number => rw [Binary64.isZero_iff, isInteger_number_iff]
  | @bigNumber n _ within =>
    have same : Binary64.ofInt n = x := by
      rw [Binary64.ofInt?] at within
      split at within
      · cases within
      · exact Option.some.inj within
    constructor
    · intro zero
      by_cases none : n = 0
      · rw [none]
        exact isInteger_bigNumber 0
      · rw [← same, Binary64.ofInt_not_zero none] at zero
        cases zero
    · intro zero
      rw [← same, (isInteger_bigNumber n).unique zero]
      rfl

namespace Builtin

variable {operation : Builtin} {args : List Value}

/-- Numbers that arithmetic takes exactly, and the integers that they are. -/
structure ExactOperands (args : List Value) (ns : List Int) : Prop where
  integers : List.Forall₂ Value.IsInteger args ns
  unbounded : ∃ n, .bigNumber n ∈ args

/-- An integer of unbounded size among the operands has no rounding. -/
def BeyondRange (args : List Value) : Prop :=
  ∃ n, .bigNumber n ∈ args ∧ Binary64.rangeEnd ≤ n.natAbs

theorem isNumber_of_integers {ns : List Int} (integers : List.Forall₂ Value.IsInteger args ns) :
    ∀ v ∈ args, v.IsNumber := by
  induction integers with
  | nil => exact fun _ member => nomatch member
  | cons first _ ih => exact List.forall_mem_cons.mpr ⟨first.isNumber, ih⟩

/-- Operands in another order are the same integers in that order. -/
theorem ExactOperands.perm {ns : List Int} (exact : ExactOperands args ns) {others : List Value}
    (permuted : args.Perm others) :
    ∃ ms, ExactOperands others ms ∧ ns.Perm ms := by
  obtain ⟨ms, integers, same⟩ := List.perm_comp_forall₂ permuted.symm exact.integers
  obtain ⟨n, member⟩ := exact.unbounded
  exact ⟨ms, ⟨integers, n, permuted.mem_iff.mp member⟩, same.symm⟩

/-- The arguments are these numbers. -/
abbrev Numbers : List Value → List Numeral → Prop :=
  List.Forall₂ fun v a => v.numeral? = some a

theorem numerals_of_numbers (operation : Builtin) (numbers : ∀ v ∈ args, v.IsNumber) :
    ∃ ns, numerals operation args = .ok ns ∧ Numbers args ns := by
  induction args with
  | nil => exact ⟨[], rfl, .nil⟩
  | cons v rest ih =>
    obtain ⟨number, others⟩ := List.forall_mem_cons.mp numbers
    obtain ⟨a, known⟩ := Option.isSome_iff_exists.mp number
    obtain ⟨ns, found, each⟩ := ih others
    refine ⟨a :: ns, ?_, .cons known each⟩
    simp only [numerals, known, found]
    rfl

theorem numerals_refuse (operation : Builtin) {before after : List Value} {v : Value}
    (numbers : ∀ u ∈ before, u.IsNumber) (other : ¬ v.IsNumber) :
    numerals operation (before ++ v :: after) = .error (.numberExpected operation v.kind) := by
  induction before with
  | nil =>
    have none : v.numeral? = none := Option.not_isSome_iff_eq_none.mp other
    simp only [List.nil_append, numerals, none]
  | cons u rest ih =>
    obtain ⟨number, others⟩ := List.forall_mem_cons.mp numbers
    obtain ⟨a, known⟩ := Option.isSome_iff_exists.mp number
    simp only [List.cons_append, numerals, known, ih others]
    rfl

theorem mem_integer_iff {ns : List Numeral} (numbers : Numbers args ns) {n : Int} :
    .integer n ∈ ns ↔ .bigNumber n ∈ args := by
  induction numbers with
  | nil => exact iff_of_false nofun nofun
  | @cons v a _ _ first _ ih =>
    have same : .integer n = a ↔ .bigNumber n = v := by
      cases v with
      | number | bigNumber =>
        cases first
        simp
      | _ => cases first
    rw [List.mem_cons, List.mem_cons, same, ih]

/-- An integral number is converted to the integer that it is. -/
theorem integral_eq_ok_iff {v : Value} {a : Numeral} (known : v.numeral? = some a) {n : Int} :
    integral a = .ok n ↔ v.IsInteger n := by
  cases v with
  | number x =>
    cases known
    rw [Value.isInteger_number_iff, integral]
    cases x.toInt? <;> simp
  | bigNumber m =>
    cases known
    have whole : (Value.bigNumber m).IsInteger n ↔ m = n :=
      ⟨(Value.isInteger_bigNumber m).unique, fun same => same ▸ Value.isInteger_bigNumber m⟩
    rw [whole, integral, Except.ok.injEq]
  | _ => cases known

theorem mapM_integral_eq_ok_iff {ns : List Numeral} (numbers : Numbers args ns) {ks : List Int} :
    ns.mapM integral = .ok ks ↔ List.Forall₂ Value.IsInteger args ks := by
  induction numbers generalizing ks with
  | nil =>
    constructor
    · rintro ⟨⟩
      exact .nil
    · rintro ⟨⟩
      rfl
  | @cons v a args ns first _ ih =>
    rw [List.mapM_cons]
    constructor
    · intro converted
      cases one : integral a with
      | error e =>
        rw [one] at converted
        cases converted
      | ok k =>
        cases others : ns.mapM integral with
        | error e =>
          rw [one, others] at converted
          cases converted
        | ok ks =>
          rw [one, others] at converted
          cases converted
          exact .cons ((integral_eq_ok_iff first).mp one) (ih.mp others)
    · rintro (_ | ⟨one, others⟩)
      rw [(integral_eq_ok_iff first).mpr one, ih.mpr others]
      rfl

theorem integral_of_integers {ns : List Numeral} (numbers : Numbers args ns) {ks : List Int}
    (integers : List.Forall₂ Value.IsInteger args ks) : ∀ a ∈ ns, ∃ k, integral a = .ok k := by
  induction numbers generalizing ks with
  | nil => exact fun _ member => nomatch member
  | cons first _ ih =>
    obtain _ | ⟨integer, others⟩ := integers
    exact List.forall_mem_cons.mpr ⟨⟨_, (integral_eq_ok_iff first).mpr integer⟩, ih others⟩

theorem isExact_iff {ns : List Numeral} (numbers : Numbers args ns) :
    isExact ns = true ↔ ∃ ks, ExactOperands args ks := by
  constructor
  · intro exact
    obtain ⟨ks, converted⟩ := mapM_ok (integral_of_isExact exact)
    obtain ⟨a, member, unbounded⟩ := List.any_eq_true.mp (Bool.and_eq_true_iff.mp exact).1
    cases a with
    | real x => cases unbounded
    | integer n =>
      exact ⟨ks, (mapM_integral_eq_ok_iff numbers).mp converted, n,
        (mem_integer_iff numbers).mp member⟩
  · rintro ⟨ks, integers, n, member⟩
    have each := integral_of_integers numbers integers
    refine Bool.and_eq_true_iff.mpr ⟨?_, List.all_eq_true.mpr fun a inside => ?_⟩
    · exact List.any_eq_true.mpr ⟨.integer n, (mem_integer_iff numbers).mpr member, rfl⟩
    · obtain ⟨k, converted⟩ := each a inside
      cases a with
      | integer => rfl
      | real x =>
        rw [integral] at converted
        cases known : x.toInt? with
        | some => exact Option.isSome_iff_exists.mpr ⟨_, known⟩
        | none =>
          rw [known] at converted
          cases converted

theorem beyondRange_cons {v : Value} :
    BeyondRange (v :: args) ↔
      (∃ n, v = .bigNumber n ∧ Binary64.rangeEnd ≤ n.natAbs) ∨ BeyondRange args := by
  simp only [BeyondRange, List.mem_cons]
  constructor
  · rintro ⟨n, rfl | member, beyond⟩
    · exact .inl ⟨n, rfl, beyond⟩
    · exact .inr ⟨n, member, beyond⟩
  · rintro (⟨n, rfl, beyond⟩ | ⟨n, member, beyond⟩)
    · exact ⟨n, .inl rfl, beyond⟩
    · exact ⟨n, .inr member, beyond⟩

/-- A number is rounded, or refused if it has no rounding. -/
theorem inexact_cases (operation : Builtin) {v : Value} {a : Numeral}
    (known : v.numeral? = some a) :
    ((∃ n, v = .bigNumber n ∧ Binary64.rangeEnd ≤ n.natAbs) ∧
      inexact operation a = .error (.operandOutOfRange operation)) ∨
    ((¬ ∃ n, v = .bigNumber n ∧ Binary64.rangeEnd ≤ n.natAbs) ∧
      ∃ x, inexact operation a = .ok x ∧ v.RoundsTo x) := by
  cases v with
  | number x =>
    cases known
    exact .inr ⟨nofun, x, rfl, .number x⟩
  | bigNumber n =>
    cases known
    rw [inexact]
    cases rounded : Binary64.ofInt? n with
    | none => exact .inl ⟨⟨n, rfl, Binary64.ofInt?_eq_none_iff.mp rounded⟩, rfl⟩
    | some x =>
      refine .inr ⟨?_, x, rfl, .bigNumber rounded⟩
      rintro ⟨_, ⟨⟩, beyond⟩
      rw [Binary64.ofInt?_eq_none_iff.mpr beyond] at rounded
      cases rounded
  | _ => cases known

theorem mapM_inexact_cases (operation : Builtin) {ns : List Numeral} (numbers : Numbers args ns) :
    (BeyondRange args ∧ ns.mapM (inexact operation) = .error (.operandOutOfRange operation)) ∨
    (¬ BeyondRange args ∧
      ∃ xs, ns.mapM (inexact operation) = .ok xs ∧ List.Forall₂ Value.RoundsTo args xs) := by
  induction numbers with
  | nil => exact .inr ⟨nofun, [], rfl, .nil⟩
  | cons first _ ih =>
    rw [List.mapM_cons, beyondRange_cons]
    obtain ⟨beyond, refused⟩ | ⟨within, x, rounded, same⟩ := inexact_cases operation first
    · rw [refused]
      exact .inl ⟨.inl beyond, rfl⟩
    · rw [rounded]
      obtain ⟨beyond, refused⟩ | ⟨others, xs, rest, each⟩ := ih
      · rw [refused]
        exact .inl ⟨.inr beyond, rfl⟩
      · rw [rest]
        exact .inr ⟨not_or.mpr ⟨within, others⟩, x :: xs, rfl, .cons same each⟩

theorem operands_refuse (operation : Builtin) {before after : List Value} {v : Value}
    (numbers : ∀ u ∈ before, u.IsNumber) (other : ¬ v.IsNumber) :
    operands operation (before ++ v :: after) =
      .error (.eval (.numberExpected operation v.kind)) := by
  simp only [operands, numerals_refuse operation numbers other]

theorem operands_exact (operation : Builtin) {ns : List Int} (exact : ExactOperands args ns) :
    operands operation args = .ok (.exact ns) := by
  obtain ⟨as, found, numbers⟩ := numerals_of_numbers operation (isNumber_of_integers exact.integers)
  have converted := (mapM_integral_eq_ok_iff numbers).mpr exact.integers
  simp only [operands, found, (isExact_iff numbers).mpr ⟨ns, exact⟩, if_true, converted]

/-- Numbers that are not taken exactly are refused if one has no rounding, and rounded otherwise. -/
theorem operands_cases (operation : Builtin) (numbers : ∀ v ∈ args, v.IsNumber)
    (inexact : ∀ ns, ¬ ExactOperands args ns) :
    (BeyondRange args ∧
      operands operation args = .error (.eval (.operandOutOfRange operation))) ∨
    (¬ BeyondRange args ∧
      ∃ xs, operands operation args = .ok (.inexact xs) ∧ List.Forall₂ Value.RoundsTo args xs) := by
  obtain ⟨as, found, each⟩ := numerals_of_numbers operation numbers
  have rounded : isExact as = false :=
    Bool.eq_false_iff.mpr fun exact => absurd ((isExact_iff each).mp exact) (not_exists.mpr inexact)
  simp only [operands, found, rounded, Bool.false_eq_true, if_false]
  obtain ⟨beyond, refused⟩ | ⟨within, xs, converted, same⟩ := mapM_inexact_cases operation each
  · rw [refused]
    exact .inl ⟨beyond, rfl⟩
  · rw [converted]
    exact .inr ⟨within, xs, rfl, same⟩

end Builtin

end ModularLisp
