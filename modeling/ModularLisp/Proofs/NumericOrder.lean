import Mathlib.Algebra.Order.Field.Basic
import Mathlib.Algebra.Order.Ring.Unbundled.Rat
import Mathlib.Data.List.Chain
import Mathlib.Order.WithBot
import ModularLisp.Proofs.Equality
import ModularLisp.Proofs.ExactArithmetic

/-!
# One total order of numbers

The exact value of a number is a rational or one of two infinities, whichever kind it is of, and the
builtins compare exact values. Since these are totally ordered, a comparison of neighbours is one of
all pairs, and of two numbers that are not `nan` exactly one is less or both are equal.
-/

namespace ModularLisp

/-- A rational, or an infinity below or above all of them. -/
abbrev ExactValue := WithBot (WithTop ℚ)

def ExactValue.rational (q : ℚ) : ExactValue := ((q : WithTop ℚ) : WithBot (WithTop ℚ))

theorem ExactValue.rational_lt_top (q : ℚ) : rational q < ⊤ :=
  WithBot.coe_lt_coe.mpr (WithTop.coe_lt_top q)

/-- A finite number is its mantissa, with its sign, times two to its exponent. -/
def Binary64.exactValue? : Binary64 → Option ExactValue
  | .nan => none
  | .infinity negative => some (if negative then ⊥ else ⊤)
  | .finite negative mantissa exponent _ =>
    some (.rational ((if negative then -1 else 1) * mantissa * 2 ^ exponent))

def Value.exactValue? : Value → Option ExactValue
  | .number x => x.exactValue?
  | .bigNumber n => some (.rational n)
  | _ => none

namespace Extended

/-- The exact value at a point of the line. -/
def exact : Extended → ExactValue
  | .below => ⊥
  | .point units => .rational (units / Binary64.unitsPerOne)
  | .above => ⊤

variable {p q : Extended}

theorem unitsPerOne_pos : (0 : ℚ) < Binary64.unitsPerOne := Nat.cast_pos.mpr (twoPow_pos 1074)

theorem le_iff : p.le q = true ↔ p.exact ≤ q.exact := by
  cases p with
  | below => exact iff_of_true rfl bot_le
  | point a =>
    cases q with
    | below =>
      refine iff_of_false Bool.false_ne_true fun le => ?_
      exact WithBot.coe_ne_bot (le_bot_iff.mp le)
    | point b =>
      rw [le, decide_eq_true_iff, exact, exact, ExactValue.rational, ExactValue.rational,
        WithBot.coe_le_coe, WithTop.coe_le_coe, div_le_div_iff_of_pos_right unitsPerOne_pos,
        Int.cast_le]
    | above => exact iff_of_true rfl le_top
  | above =>
    cases q with
    | above => exact iff_of_true rfl le_rfl
    | below => exact iff_of_false Bool.false_ne_true (not_le_of_gt bot_lt_top)
    | point b =>
      exact iff_of_false Bool.false_ne_true (not_le_of_gt (ExactValue.rational_lt_top _))

theorem lt_iff : p.lt q = true ↔ p.exact < q.exact := by
  rw [lt, Bool.not_eq_true', ← not_le, ← le_iff, Bool.not_eq_true]

theorem exact_inj (same : p.exact = q.exact) : p = q := by
  have one : p.le q = true := le_iff.mpr (le_of_eq same)
  have other : q.le p = true := le_iff.mpr (le_of_eq same.symm)
  cases p with
  | below =>
    cases q with
    | below => rfl
    | point | above => cases other
  | point a =>
    cases q with
    | below => cases one
    | above => cases other
    | point b =>
      have ordered : a ≤ b := of_decide_eq_true one
      exact congrArg point (Int.le_antisymm ordered (of_decide_eq_true other))
  | above =>
    cases q with
    | above => rfl
    | below | point => cases one

end Extended

theorem cast_twoPow (n : ℕ) : ((twoPow n : ℕ) : ℚ) = 2 ^ n := Nat.cast_pow 2 n

theorem Binary64.exactValue?_eq (x : Binary64) :
    x.exactValue? = x.extended?.map Extended.exact := by
  cases x with
  | nan => rfl
  | infinity negative => cases negative <;> rfl
  | finite negative mantissa exponent canonical =>
    have size :
        ((magnitude mantissa exponent : ℕ) : ℚ) / unitsPerOne = mantissa * 2 ^ exponent := by
      have least : ((exponent + 1074).toNat : ℤ) = exponent + (1074 : ℕ) :=
        Int.toNat_of_nonneg (by linarith [canonical.exponent_ge])
      have nonzero : (2 : ℚ) ≠ 0 := two_ne_zero
      rw [magnitude, unitsPerOne, Nat.cast_mul, cast_twoPow, cast_twoPow, ← zpow_natCast, least,
        zpow_add₀ nonzero, zpow_natCast, ← mul_assoc,
        mul_div_cancel_right₀ _ (pow_ne_zero _ nonzero)]
    have signed : (((if negative then -(magnitude mantissa exponent : ℤ)
        else magnitude mantissa exponent : ℤ) : ℚ)) / unitsPerOne =
          (if negative then -1 else 1) * mantissa * 2 ^ exponent := by
      cases negative with
      | true =>
        simp only [if_true, Int.cast_neg, Int.cast_natCast, neg_div, size]
        ring
      | false =>
        simp only [Bool.false_eq_true, if_false, Int.cast_natCast, size]
        ring
    simp only [exactValue?, extended?, units?, Option.map_some, Extended.exact, signed]

namespace Value

theorem exactValue?_eq (v : Value) : v.exactValue? = v.point?.map Extended.exact := by
  cases v with
  | number x => exact x.exactValue?_eq
  | bigNumber n =>
    have nonzero : ((Binary64.unitsPerOne : ℕ) : ℚ) ≠ 0 := ne_of_gt Extended.unitsPerOne_pos
    change _ = some (Extended.exact (.point (n * Binary64.unitsPerOne)))
    rw [exactValue?, Extended.exact, Int.cast_mul, Int.cast_natCast,
      mul_div_cancel_right₀ _ nonzero]
  | _ => rfl

/-- The exact values of two numbers are so related. -/
def Related (relation : ExactValue → ExactValue → Prop) (v w : Value) : Prop :=
  ∃ x y, v.exactValue? = some x ∧ w.exactValue? = some y ∧ relation x y

variable {relation : ExactValue → ExactValue → Prop} {v w : Value} {x y : ExactValue}

theorem related_iff (left : v.exactValue? = some x) (right : w.exactValue? = some y) :
    v.Related relation w ↔ relation x y := by
  simp only [Related, left, right, Option.some.injEq, exists_eq_left', exists_and_left]

instance [IsTrans ExactValue relation] : IsTrans Value (Related relation) where
  trans := by
    rintro u v w ⟨x, y, left, middle, first⟩ ⟨y', z, middle', right, second⟩
    cases middle.symm.trans middle'
    exact ⟨x, z, left, right, IsTrans.trans x y z first second⟩

/-- Only `nan` has no exact value. -/
theorem exists_exact (number : v.IsNumber) (known : v.WithoutNaN) :
    ∃ x, v.exactValue? = some x := by
  cases known with
  | @number x isNumber =>
    obtain ⟨p, point⟩ :=
      Option.ne_none_iff_exists'.mp (mt Binary64.extended?_eq_none_iff.mp isNumber)
    refine ⟨p.exact, ?_⟩
    rw [exactValue?, Binary64.exactValue?_eq, point, Option.map_some]
  | bigNumber n => exact ⟨_, rfl⟩
  | _ => cases number

theorem isNumber_of_exactValue? (known : v.exactValue? = some x) : v.IsNumber := by
  cases v with
  | number | bigNumber => rfl
  | _ => cases known

/-- Equality of numbers is equality of exact values. -/
theorem same_iff_exact (left : v.exactValue? = some x) (right : w.exactValue? = some y) :
    v.same w = true ↔ x = y := by
  rw [exactValue?_eq, Option.map_eq_some_iff] at left right
  obtain ⟨p, pointLeft, rfl⟩ := left
  obtain ⟨q, pointRight, rfl⟩ := right
  rw [same_number_iff (isNumber_of_point? pointLeft), pointLeft, pointRight]
  constructor
  · rintro ⟨_, ⟨⟩, ⟨⟩⟩
    rfl
  · intro same
    exact ⟨p, rfl, congrArg some (Extended.exact_inj same).symm⟩

end Value

theorem Numeral.compareBy_iff {test : Extended → Extended → Bool} {a b : Numeral} :
    compareBy test a b = true ↔
      ∃ p q, a.extended? = some p ∧ b.extended? = some q ∧ test p q = true := by
  rw [compareBy]
  cases a.extended? <;> cases b.extended? <;> simp

namespace Builtin

open Value

/-- The comparisons, and what each one says of two exact values. -/
inductive Compares : Builtin → (ExactValue → ExactValue → Prop) → Prop
  | less : Compares .less (· < ·)
  | lessOrEqual : Compares .lessOrEqual (· ≤ ·)
  | greater : Compares .greater (· > ·)
  | greaterOrEqual : Compares .greaterOrEqual (· ≥ ·)

/-- A test of two numerals that says whether their exact values are so related. -/
def Decides (test : Numeral → Numeral → Bool) (relation : ExactValue → ExactValue → Prop) : Prop :=
  ∀ {v w : Value} {a b : Numeral}, v.numeral? = some a → w.numeral? = some b →
    (test a b = true ↔ v.Related relation w)

variable {operation : Builtin} {relation : ExactValue → ExactValue → Prop}
  {test : Numeral → Numeral → Bool} {v w : Value} {vs : List Value}

theorem decides_compareBy {test : Extended → Extended → Bool}
    (agree : ∀ p q, test p q = true ↔ relation p.exact q.exact) :
    Decides (Numeral.compareBy test) relation := by
  intro v w a b left right
  have exactLeft := v.exactValue?_eq
  have exactRight := w.exactValue?_eq
  rw [point?_of_numeral? left] at exactLeft
  rw [point?_of_numeral? right] at exactRight
  rw [Numeral.compareBy_iff, Related, exactLeft, exactRight]
  constructor
  · rintro ⟨p, q, pointLeft, pointRight, holds⟩
    rw [pointLeft, pointRight]
    exact ⟨_, _, rfl, rfl, (agree p q).mp holds⟩
  · rintro ⟨x, y, known, known', holds⟩
    obtain ⟨p, pointLeft, rfl⟩ := Option.map_eq_some_iff.mp known
    obtain ⟨q, pointRight, rfl⟩ := Option.map_eq_some_iff.mp known'
    exact ⟨p, q, pointLeft, pointRight, (agree p q).mpr holds⟩

theorem related_swap : v.Related (fun x y => relation y x) w ↔ w.Related relation v := by
  constructor <;> exact fun ⟨x, y, left, right, holds⟩ => ⟨y, x, right, left, holds⟩

theorem Decides.swap (decides : Decides test relation) :
    Decides (fun a b => test b a) (fun x y => relation y x) := by
  intro v w a b left right
  rw [decides right left, related_swap]

theorem Compares.decides (compares : Compares operation relation) :
    ∃ test, Decides test relation ∧ operation.run = compareAll operation test := by
  have lt : Decides Numeral.lt (· < ·) := decides_compareBy fun _ _ => Extended.lt_iff
  have le : Decides Numeral.le (· ≤ ·) := decides_compareBy fun _ _ => Extended.le_iff
  cases compares with
  | less => exact ⟨_, lt, rfl⟩
  | lessOrEqual => exact ⟨_, le, rfl⟩
  | greater => exact ⟨_, lt.swap, rfl⟩
  | greaterOrEqual => exact ⟨_, le.swap, rfl⟩

theorem Compares.isTrans (compares : Compares operation relation) :
    IsTrans ExactValue relation := by
  cases compares <;> infer_instance

theorem betweenNeighbours_iff (decides : Decides test relation) {ns : List Numeral}
    (numbers : Numbers vs ns) :
    betweenNeighbours test ns = true ↔ vs.IsChain (Related relation) := by
  induction numbers with
  | nil => exact iff_of_true rfl .nil
  | cons first rest ih =>
    cases rest with
    | nil => exact iff_of_true rfl (.singleton _)
    | cons second =>
      rw [betweenNeighbours, Bool.and_eq_true_iff, decides first second, ih, List.isChain_cons_cons]

/-- A comparison of numbers holds exactly if each earlier one is so related to each later one. -/
theorem run_compares (compares : Compares operation relation) (numbers : ∀ v ∈ vs, v.IsNumber)
    (enough : 2 ≤ vs.length) :
    ∃ b, run operation vs = .ok (.boolean b) ∧ (b = true ↔ vs.Pairwise (Related relation)) := by
  have transitive := compares.isTrans
  obtain ⟨test, decides, runs⟩ := compares.decides
  obtain ⟨ns, found, each⟩ := numerals_of_numbers operation numbers
  refine ⟨betweenNeighbours test ns, ?_, ?_⟩
  · rw [runs, compareAll, atLeast, if_neg (Nat.not_lt.mpr enough), found]
    rfl
  · rw [betweenNeighbours_iff decides each, List.isChain_iff_pairwise]

theorem run_compares_refuse (compares : Compares operation relation) {before after : List Value}
    (enough : 2 ≤ (before ++ v :: after).length) (numbers : ∀ u ∈ before, u.IsNumber)
    (other : ¬ v.IsNumber) :
    run operation (before ++ v :: after) = .error (.eval (.numberExpected operation v.kind)) := by
  obtain ⟨test, -, runs⟩ := compares.decides
  rw [runs, compareAll, atLeast, if_neg (Nat.not_lt.mpr enough),
    numerals_refuse operation numbers other]
  rfl

/-- Comparing the other way is comparing in the reverse order. -/
theorem run_reverse {mirrored : Builtin} (compares : Compares operation relation)
    (mirrors : Compares mirrored fun x y => relation y x) (numbers : ∀ v ∈ vs, v.IsNumber)
    (enough : 2 ≤ vs.length) : run mirrored vs = run operation vs.reverse := by
  have numbers' : ∀ v ∈ vs.reverse, v.IsNumber := fun v member =>
    numbers v (List.mem_reverse.mp member)
  have enough' : 2 ≤ vs.reverse.length := enough.trans_eq List.length_reverse.symm
  obtain ⟨b, ran, holds⟩ := run_compares mirrors numbers enough
  obtain ⟨c, ran', holds'⟩ := run_compares compares numbers' enough'
  have same : b = true ↔ c = true := by
    rw [holds, holds', List.pairwise_reverse]
    exact List.Pairwise.iff fun _ _ => related_swap
  rw [ran, ran', Bool.eq_iff_iff.mpr same]

section Pair

variable {x y : ExactValue} (left : v.exactValue? = some x) (right : w.exactValue? = some y)

include left right

theorem run_compares_pair (compares : Compares operation relation) :
    ∃ b, run operation [v, w] = .ok (.boolean b) ∧ (b = true ↔ relation x y) := by
  have numbers : ∀ u ∈ [v, w], u.IsNumber := List.forall_mem_cons.mpr
    ⟨isNumber_of_exactValue? left, List.forall_mem_singleton.mpr (isNumber_of_exactValue? right)⟩
  obtain ⟨b, ran, holds⟩ := run_compares compares numbers (Nat.le_refl 2)
  exact ⟨b, ran, holds.trans (List.pairwise_pair.trans (related_iff left right))⟩

theorem run_compares_pair_iff (compares : Compares operation relation) :
    run operation [v, w] = .ok (.boolean true) ↔ relation x y := by
  obtain ⟨b, ran, holds⟩ := run_compares_pair left right compares
  rw [ran, Except.ok.injEq, boolean.injEq, holds]

theorem run_equal_pair_iff : run .equal [v, w] = .ok (.boolean true) ↔ x = y := by
  rw [run_equal_cons, Except.ok.injEq, boolean.injEq, ← same_iff_exact left right]
  simp

/-- Exactly one of the three relations holds. -/
theorem existsUnique_relation : ∃! operation, operation ∈ [Builtin.less, .equal, .greater] ∧
    run operation [v, w] = .ok (.boolean true) := by
  have three : ∀ operation, (operation ∈ [Builtin.less, .equal, .greater] ∧
      run operation [v, w] = .ok (.boolean true)) ↔
        operation = .less ∧ x < y ∨ operation = .equal ∧ x = y ∨ operation = .greater ∧ x > y := by
    intro operation
    rw [← run_compares_pair_iff left right .less, ← run_equal_pair_iff left right,
      ← run_compares_pair_iff left right .greater]
    constructor
    · simp only [List.mem_cons, List.not_mem_nil, or_false]
      rintro ⟨rfl | rfl | rfl, holds⟩ <;> simp [holds]
    · rintro (⟨rfl, holds⟩ | ⟨rfl, holds⟩ | ⟨rfl, holds⟩) <;> simp [holds]
  rw [existsUnique_congr three]
  rcases lt_trichotomy x y with less | rfl | greater
  · simp [less, less.ne, less.asymm]
  · simp
  · simp [greater, greater.ne', greater.asymm]

theorem run_lessOrEqual_eq_not : ∃ b, run .greater [v, w] = .ok (.boolean b) ∧
    run .lessOrEqual [v, w] = .ok (.boolean !b) := by
  obtain ⟨b, ran, holds⟩ := run_compares_pair left right .greater
  obtain ⟨c, ran', holds'⟩ := run_compares_pair left right .lessOrEqual
  have opposite : c = !b := by
    rw [Bool.eq_iff_iff, holds', Bool.not_eq_true', ← Bool.not_eq_true, holds, not_lt]
  exact ⟨b, ran, opposite ▸ ran'⟩

end Pair

/-- The comparisons are one total order of numbers of both kinds. Of at least two numbers a
comparison holds exactly if the exact value of each is so related to that of every later one;
greater numbers are smaller ones in the reverse order; of two that are not `nan`, one is less, or
both are equal, or one is greater, never two of these, and less-or-equal is the negation of
greater. The first argument that is no number is refused whatever the ones before it have
decided. -/
theorem comparison_is_total_order :
    (∀ operation relation, Compares operation relation →
      ∀ vs : List Value, (∀ v ∈ vs, v.IsNumber) → 2 ≤ vs.length →
        ∃ b, run operation vs = .ok (.boolean b) ∧ (b = true ↔ vs.Pairwise (Related relation))) ∧
    (∀ vs : List Value, (∀ v ∈ vs, v.IsNumber) → 2 ≤ vs.length →
      run .greater vs = run .less vs.reverse ∧
      run .greaterOrEqual vs = run .lessOrEqual vs.reverse) ∧
    (∀ v w : Value, v.IsNumber → v.WithoutNaN → w.IsNumber → w.WithoutNaN →
      (∃! operation, operation ∈ [Builtin.less, .equal, .greater] ∧
        run operation [v, w] = .ok (.boolean true)) ∧
      ∃ b, run .greater [v, w] = .ok (.boolean b) ∧ run .lessOrEqual [v, w] = .ok (.boolean !b)) ∧
    (∀ operation relation, Compares operation relation → ∀ (before after : List Value) (v : Value),
      2 ≤ (before ++ v :: after).length → (∀ u ∈ before, u.IsNumber) → ¬ v.IsNumber →
        FailsWith .type (.numberExpected operation v.kind)
          (run operation (before ++ v :: after))) := by
  refine ⟨?chain, ?reverse, ?pair, ?refuse⟩
  case chain => exact fun operation relation compares vs => run_compares compares
  case reverse =>
    exact fun vs numbers enough => ⟨run_reverse .less .greater numbers enough,
      run_reverse .lessOrEqual .greaterOrEqual numbers enough⟩
  case pair =>
    intro v w number known number' known'
    obtain ⟨x, left⟩ := exists_exact number known
    obtain ⟨y, right⟩ := exists_exact number' known'
    exact ⟨existsUnique_relation left right, run_lessOrEqual_eq_not left right⟩
  case refuse =>
    intro operation relation compares before after v enough numbers other
    exact ⟨run_compares_refuse compares enough numbers other, rfl⟩

/-- Two infinities around a number and an integer that would be rounded to it, and a pair that
decides the answer in front of a text and of another value that is no number. -/
theorem comparison_is_total_order_of_neighbouring_kinds :
    let low : Value := number (.infinity true)
    let power : Value := number (.ofInt (2 ^ 53))
    let next : Value := bigNumber (2 ^ 53 + 1)
    let high : Value := number (.infinity false)
    let vs := [low, power, next, high]
    ((∀ v ∈ vs, v.IsNumber) ∧ run .less vs = .ok (.boolean true) ∧
      vs.Pairwise (Related (· < ·)) ∧ run .greater vs.reverse = .ok (.boolean true)) ∧
    (power.WithoutNaN ∧ next.WithoutNaN ∧ run .equal [power, next] ≠ .ok (.boolean true)) ∧
    FailsWith .type (.numberExpected .less "string")
      (run .less [high, low, .string "a", .nil]) := by
  intro low power next high vs
  obtain ⟨chain, reverse, pair, refuse⟩ := comparison_is_total_order
  have numbers : ∀ v ∈ vs, v.IsNumber := by
    simp only [vs, List.forall_mem_cons]
    exact ⟨rfl, rfl, rfl, rfl, nofun⟩
  have reversed : ∀ v ∈ vs.reverse, v.IsNumber := fun v member =>
    numbers v (List.mem_reverse.mp member)
  have less : run .less vs = .ok (.boolean true) := by
    have tests : betweenNeighbours Numeral.lt [.real (.infinity true), .real (.ofInt (2 ^ 53)),
      .integer (2 ^ 53 + 1), .real (.infinity false)] = true := by decide +kernel
    exact congrArg (fun b => Except.ok (boolean b)) tests
  obtain ⟨b, ran, holds⟩ := chain .less _ .less vs numbers (by decide)
  cases less.symm.trans ran
  have greater := (reverse vs.reverse reversed (by decide)).1
  rw [List.reverse_reverse] at greater
  have powerKnown : power.WithoutNaN := same_self_iff.mp (by decide +kernel)
  have nextKnown : next.WithoutNaN := .bigNumber _
  obtain ⟨one, -⟩ := pair power next rfl powerKnown rfl nextKnown
  have smaller : run .less [power, next] = .ok (.boolean true) := by
    have tests : betweenNeighbours Numeral.lt [.real (.ofInt (2 ^ 53)), .integer (2 ^ 53 + 1)] =
      true := by decide +kernel
    exact congrArg (fun b => Except.ok (boolean b)) tests
  refine ⟨⟨numbers, less, holds.mp rfl, greater.trans less⟩, ⟨powerKnown, nextKnown, ?_⟩, ?_⟩
  · intro equal
    cases one.unique ⟨List.mem_cons_self, smaller⟩ ⟨by decide, equal⟩
  · exact refuse .less _ .less [high, low] [.nil] (.string "a") (by decide)
      (List.forall_mem_cons.mpr ⟨rfl, List.forall_mem_singleton.mpr rfl⟩) Bool.false_ne_true

end Builtin

end ModularLisp
