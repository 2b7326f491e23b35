import Mathlib.Algebra.BigOperators.Ring.List
import ModularLisp.Proofs.ExactArithmetic

/-!
# Division

A division goes through its divisors one after the other and leaves exact arithmetic for good at the
first remainder. Since a divisor leaves a remainder only if the product of all leaves one, the
result is an integer exactly if the product divides the dividend, in whatever order the divisors
come. With the remainder operation this is division with remainder, rounded down.
-/

namespace ModularLisp.Builtin

variable {args : List Value} {ns : List Int}

/-- All operands but the first, or the only one. -/
def divisors {α : Type} : List α → List α
  | [a] => [a]
  | as => as.tail

/-- The first of several operands; a single one divides `one`. -/
def dividend {α : Type} (one : α) : List α → α
  | a :: _ :: _ => a
  | _ => one

/-- The order of the divisors decides neither the dividend nor which the divisors are. -/
theorem divisors_perm {α : Type} (one a : α) {bs cs : List α} (permuted : bs.Perm cs) :
    dividend one (a :: bs) = dividend one (a :: cs) ∧
      (divisors (a :: bs)).Perm (divisors (a :: cs)) := by
  cases bs with
  | nil =>
    rw [List.nil_perm.mp permuted]
    exact ⟨rfl, .refl _⟩
  | cons b bs =>
    cases cs with
    | nil => cases List.perm_nil.mp permuted
    | cons c cs => exact ⟨rfl, permuted⟩

theorem divisors_forall₂ {α β : Type} {R : α → β → Prop} {as : List α} {bs : List β}
    (related : List.Forall₂ R as bs) : List.Forall₂ R (divisors as) (divisors bs) := by
  cases related with
  | nil => exact .nil
  | cons first rest =>
    cases rest with
    | nil => exact .cons first .nil
    | cons second others => exact .cons second others

theorem divAll_exact (exact : ExactOperands args ns) :
    divAll args = divideIntegers (dividend 1 ns) (divisors ns) := by
  obtain ⟨n, member⟩ := exact.unbounded
  have some : ¬ args.length < 1 := Nat.not_lt.mpr (List.length_pos_of_mem member)
  have counted := exact.integers.length_eq
  rw [divAll, atLeast, if_neg some, operands_exact .div exact]
  rcases ns with - | ⟨first, - | ⟨second, rest⟩⟩
  · exact absurd counted (by simpa using some)
  · simp only [dividend, divisors]
    rfl
  · simp only [dividend, divisors, List.tail_cons]
    rfl

theorem divAll_inexact {xs : List Binary64} (found : operands .div args = .ok (.inexact xs))
    (some : args ≠ []) (counted : args.length = xs.length) :
    divAll args = divideReals (dividend (.ofInt 1) xs) (divisors xs) := by
  have least : ¬ args.length < 1 := Nat.not_lt.mpr (List.length_pos_of_ne_nil some)
  rw [divAll, atLeast, if_neg least, found]
  rcases xs with - | ⟨first, - | ⟨second, rest⟩⟩
  · exact absurd counted (by simpa using some)
  · rfl
  · rfl

/-- A number in floating point, or an integer on the way had no rounding. -/
def LeavesIntegers (result : Except Error Value) : Prop :=
  (∃ x, result = .ok (.number x)) ∨ FailsWith .evaluation (.operandOutOfRange .div) result

theorem divideIntegers_of_mul_prod {ds : List Int} (nonzero : 0 ∉ ds) (q : Int) :
    divideIntegers (q * ds.prod) ds = .ok (.bigNumber q) := by
  induction ds with
  | nil => rw [List.prod_nil, Int.mul_one, divideIntegers]
  | cons d rest ih =>
    obtain ⟨first, others⟩ := not_or.mp (List.mem_cons.not.mp nonzero)
    have divisor : d ≠ 0 := fun zero => first zero.symm
    have factor : q * (d :: rest).prod = q * rest.prod * d := by
      rw [List.prod_cons, Int.mul_comm d, Int.mul_assoc]
    rw [factor]
    simp only [divideIntegers, intRemainder, intQuotient, if_neg divisor, Int.mul_fmod_left,
      if_true, Int.mul_fdiv_cancel _ divisor]
    exact ih others

theorem divideByIntegers_leaves {ds : List Int} (nonzero : 0 ∉ ds) (q : Binary64) :
    LeavesIntegers (divideByIntegers q ds) := by
  induction ds generalizing q with
  | nil => exact .inl ⟨q, rfl⟩
  | cons d rest ih =>
    obtain ⟨first, others⟩ := not_or.mp (List.mem_cons.not.mp nonzero)
    have divisor : d ≠ 0 := fun zero => first zero.symm
    rw [divideByIntegers, if_neg divisor]
    obtain ⟨-, refused⟩ | ⟨-, x, converted, rounded⟩ :=
      inexact_cases .div (v := .bigNumber d) rfl
    · rw [refused]
      exact .inr ⟨rfl, rfl⟩
    · have nonzero : x.isZero = false := Bool.eq_false_iff.mpr fun zero =>
        divisor ((Value.isInteger_bigNumber d).unique (rounded.isZero_iff.mp zero))
      rw [converted]
      simp only [realQuotient, nonzero, Bool.false_eq_true, if_false]
      exact ih others _

/-- A product that does not divide has a first factor that leaves a remainder. -/
theorem divideIntegers_leaves {ds : List Int} (nonzero : 0 ∉ ds) {a : Int}
    (rest : ¬ ds.prod ∣ a) : LeavesIntegers (divideIntegers a ds) := by
  induction ds generalizing a with
  | nil => exact absurd (one_dvd a) (List.prod_nil (α := Int) ▸ rest)
  | cons d ds ih =>
    obtain ⟨first, others⟩ := not_or.mp (List.mem_cons.not.mp nonzero)
    have divisor : d ≠ 0 := fun zero => first zero.symm
    by_cases divides : d ∣ a
    · obtain ⟨q, rfl⟩ := divides
      have later : ¬ ds.prod ∣ q := fun divides =>
        rest (List.prod_cons (α := Int) ▸ Int.mul_dvd_mul_left d divides)
      simp only [divideIntegers, intRemainder, intQuotient, if_neg divisor, Int.mul_fmod_right,
        if_true, Int.mul_fdiv_cancel_left _ divisor]
      exact ih others later
    · have remains : a.fmod d ≠ 0 := fun none => divides (Int.dvd_of_fmod_eq_zero none)
      simp only [divideIntegers, intRemainder, if_neg divisor, if_neg remains]
      obtain ⟨-, refused⟩ | ⟨-, x, converted, -⟩ := inexact_cases .div (v := .bigNumber a) rfl
      · rw [refused]
        exact .inr ⟨rfl, rfl⟩
      · rw [converted]
        exact divideByIntegers_leaves nonzero x

/-- The result is an integer exactly if it is the quotient by the product of the divisors. -/
theorem run_div_eq_iff (exact : ExactOperands args ns) (nonzero : 0 ∉ divisors ns) {q : Int} :
    run .div args = .ok (.bigNumber q) ↔ q * (divisors ns).prod = dividend 1 ns := by
  rw [run, divAll_exact exact]
  by_cases divides : (divisors ns).prod ∣ dividend 1 ns
  · obtain ⟨k, product⟩ := divides
    have factor : (divisors ns).prod ≠ 0 := List.prod_ne_zero nonzero
    rw [product, Int.mul_comm _ k, divideIntegers_of_mul_prod nonzero,
      Int.mul_eq_mul_right_iff factor, eq_comm]
    simp only [Except.ok.injEq, Value.bigNumber.injEq]
  · refine iff_of_false (fun integer => ?_) fun product => divides (Dvd.intro_left q product)
    obtain ⟨x, number⟩ | ⟨failed, -⟩ := divideIntegers_leaves nonzero divides
    · rw [number] at integer
      cases integer
    · rw [failed] at integer
      cases integer

/-- A zero divisor was met, or an integer on the way to it had no rounding. -/
def RefusesZero (result : Except Error Value) : Prop :=
  FailsWith .evaluation .divisionByZero result ∨
    FailsWith .evaluation (.operandOutOfRange .div) result

theorem divideReals_zero {ds : List Binary64} (zero : ∃ d ∈ ds, d.isZero = true) (q : Binary64) :
    divideReals q ds = .error (.eval .divisionByZero) := by
  induction ds generalizing q with
  | nil => obtain ⟨d, ⟨⟩, -⟩ := zero
  | cons d rest ih =>
    rw [divideReals]
    cases here : d.isZero with
    | true => rw [if_pos rfl]
    | false =>
      obtain ⟨c, member, none⟩ := zero
      have later : c ∈ rest := by
        rcases List.mem_cons.mp member with rfl | later
        · rw [here] at none
          cases none
        · exact later
      simp only [Bool.false_eq_true, if_false, realQuotient, here]
      exact ih ⟨c, later, none⟩ _

theorem divideByIntegers_zero {ds : List Int} (zero : 0 ∈ ds) (q : Binary64) :
    RefusesZero (divideByIntegers q ds) := by
  induction ds generalizing q with
  | nil => cases zero
  | cons d rest ih =>
    rw [divideByIntegers]
    split
    · exact .inl ⟨rfl, rfl⟩
    · rename_i divisor
      have later : 0 ∈ rest := (List.mem_cons.mp zero).resolve_left fun same => divisor same.symm
      obtain ⟨-, refused⟩ | ⟨-, x, converted, rounded⟩ :=
        inexact_cases .div (v := .bigNumber d) rfl
      · rw [refused]
        exact .inr ⟨rfl, rfl⟩
      · have nonzero : x.isZero = false := Bool.eq_false_iff.mpr fun zero =>
          divisor ((Value.isInteger_bigNumber d).unique (rounded.isZero_iff.mp zero))
        rw [converted]
        simp only [realQuotient, nonzero, Bool.false_eq_true, if_false]
        exact ih later _

theorem divideIntegers_zero {ds : List Int} (zero : 0 ∈ ds) (a : Int) :
    RefusesZero (divideIntegers a ds) := by
  induction ds generalizing a with
  | nil => cases zero
  | cons d rest ih =>
    rw [divideIntegers]
    split
    · exact .inl ⟨rfl, rfl⟩
    · rename_i divisor
      have later : 0 ∈ rest := (List.mem_cons.mp zero).resolve_left fun same => divisor same.symm
      simp only [intRemainder, intQuotient, if_neg divisor]
      split
      · exact ih later _
      · obtain ⟨-, refused⟩ | ⟨-, x, converted, -⟩ := inexact_cases .div (v := .bigNumber a) rfl
        · rw [refused]
          exact .inr ⟨rfl, rfl⟩
        · rw [converted]
          exact divideByIntegers_zero zero x

/-- Among numbers of any kind a zero divisor is refused. -/
theorem run_div_zero (numbers : ∀ v ∈ args, v.IsNumber)
    (zero : ∃ v ∈ divisors args, v.IsInteger 0) : RefusesZero (run .div args) := by
  obtain ⟨v, member, none⟩ := zero
  have some : args ≠ [] := by
    rintro rfl
    cases member
  rw [run]
  by_cases exact : ∃ ns, ExactOperands args ns
  · obtain ⟨ns, exact⟩ := exact
    obtain ⟨n, inside, integer⟩ := exists_of_mem (divisors_forall₂ exact.integers) member
    rw [divAll_exact exact]
    exact divideIntegers_zero (none.unique integer ▸ inside) _
  · obtain ⟨-, refused⟩ | ⟨-, xs, found, rounded⟩ :=
      operands_cases .div numbers (not_exists.mp exact)
    · have least : ¬ args.length < 1 := Nat.not_lt.mpr (List.length_pos_of_ne_nil some)
      refine .inr ⟨?_, rfl⟩
      rw [divAll, atLeast, if_neg least, refused]
      rfl
    · obtain ⟨x, inside, same⟩ := exists_of_mem (divisors_forall₂ rounded) member
      rw [divAll_inexact found some rounded.length_eq]
      exact .inl ⟨divideReals_zero ⟨x, inside, same.isZero_iff.mpr none⟩ _, rfl⟩

/-- A flooring remainder lies between zero and the divisor. -/
theorem fmod_between (a : Int) {b : Int} (nonzero : b ≠ 0) :
    (a.fmod b = 0 ∨ (a.fmod b).sign = b.sign) ∧ (a.fmod b).natAbs < b.natAbs := by
  have positive : ∀ {a b : Int}, 0 < b → 0 ≤ a.fmod b ∧ a.fmod b < b := fun above =>
    ⟨Int.fmod_nonneg_of_pos _ above, Int.fmod_lt_of_pos _ above⟩
  rcases Int.lt_or_gt_of_ne nonzero with below | above
  · obtain ⟨lower, upper⟩ := positive (a := -a) (Int.neg_pos_of_neg below)
    rw [Int.neg_fmod_neg] at lower upper
    refine ⟨?_, by omega⟩
    by_cases none : a.fmod b = 0
    · exact .inl none
    · rw [Int.sign_eq_neg_one_of_neg below, Int.sign_eq_neg_one_of_neg (by omega)]
      exact .inr rfl
  · obtain ⟨lower, upper⟩ := positive (a := a) above
    refine ⟨?_, by omega⟩
    by_cases none : a.fmod b = 0
    · exact .inl none
    · rw [Int.sign_eq_one_of_pos above, Int.sign_eq_one_of_pos (by omega)]
      exact .inr rfl

/-- The remainder and the quotient of what is left without it. -/
theorem run_remainder {v w : Value} {a b : Int} (exact : ExactOperands [v, w] [a, b])
    (nonzero : b ≠ 0) :
    run .mod [v, w] = .ok (.bigNumber (a.fmod b)) ∧
      run .sub [v, .bigNumber (a.fmod b)] = .ok (.bigNumber (a - a.fmod b)) ∧
      run .div [.bigNumber (a - a.fmod b), w] = .ok (.bigNumber (a.fdiv b)) := by
  obtain ⟨whole, divisor⟩ := List.forall₂_cons.mp exact.integers
  have difference : ExactOperands [v, .bigNumber (a.fmod b)] [a, a.fmod b] :=
    ⟨.cons whole (.cons (Value.isInteger_bigNumber _) .nil), a.fmod b, by simp⟩
  have quotient : ExactOperands [.bigNumber (a - a.fmod b), w] [a - a.fmod b, b] :=
    ⟨.cons (Value.isInteger_bigNumber _) divisor, _, List.mem_cons_self⟩
  refine ⟨?_, ?_, ?_⟩
  · have takes : TakesCount .mod [v, w].length := by
      rintro e ⟨⟩
      contradiction
    obtain ⟨_, gives, ran⟩ := modPair_exact exact takes
    rw [run, ran]
    cases gives with
    | remainder =>
      rw [floor_div_eq_fdiv, ← Int.fmod_def]
      rfl
    | divisionByZero => exact absurd rfl nonzero
  · have takes : TakesCount .sub [v, .bigNumber (a.fmod b)].length := by rintro e ⟨⟩
    obtain ⟨_, gives, ran⟩ := subAll_exact difference takes
    rw [run, ran]
    cases gives with
    | difference => simp [answer]
  · refine (run_div_eq_iff quotient ?_).mpr ?_
    · simpa [divisors] using nonzero.symm
    · have whole := Int.fmod_add_fdiv_mul a b
      simp only [divisors, dividend, List.tail_cons, List.prod_cons, List.prod_nil, Int.mul_one]
      omega

/-- Division on integers of both kinds of which one is of unbounded size. Without a zero divisor it
gives the quotient exactly if the product of the divisors divides the dividend, and in whatever
order these come; otherwise it leaves the integers. A zero divisor is refused, wherever it stands
and whatever other numbers stand beside it. The remainder has the sign of the divisor, is smaller,
and completes the quotient of the rest. -/
theorem division_exact_iff_divides :
    (∀ args ns, ExactOperands args ns → 0 ∉ divisors ns →
      ((∃ q, run .div args = .ok (.bigNumber q)) ↔ (divisors ns).prod ∣ dividend 1 ns) ∧
      (∀ q, run .div args = .ok (.bigNumber q) → q * (divisors ns).prod = dividend 1 ns) ∧
      (¬ (divisors ns).prod ∣ dividend 1 ns → LeavesIntegers (run .div args)) ∧
      ∀ v vs ws, args = v :: vs → vs.Perm ws → ∀ q,
        run .div (v :: ws) = .ok (.bigNumber q) ↔ run .div args = .ok (.bigNumber q)) ∧
    (∀ args, (∀ v ∈ args, v.IsNumber) → (∃ v ∈ divisors args, v.IsInteger 0) →
      RefusesZero (run .div args)) ∧
    ∀ v w a b, ExactOperands [v, w] [a, b] → b ≠ 0 → ∃ r d q,
      run .mod [v, w] = .ok (.bigNumber r) ∧ (r = 0 ∨ r.sign = b.sign) ∧ r.natAbs < b.natAbs ∧
      run .sub [v, .bigNumber r] = .ok d ∧ run .div [d, w] = .ok (.bigNumber q) ∧
      q * b + r = a := by
  refine ⟨fun args ns exact nonzero => ⟨?_, ?_, ?_, ?_⟩, ?_, ?_⟩
  · simp only [run_div_eq_iff exact nonzero]
    exact ⟨fun ⟨q, product⟩ => Dvd.intro_left q product,
      fun ⟨q, product⟩ => ⟨q, product ▸ Int.mul_comm q _⟩⟩
  · exact fun q => (run_div_eq_iff exact nonzero).mp
  · intro rest
    rw [run, divAll_exact exact]
    exact divideIntegers_leaves nonzero rest
  · rintro v vs ws rfl permuted q
    obtain ⟨n, ms, first, others, rfl⟩ := List.forall₂_cons_left_iff.mp exact.integers
    obtain ⟨ks, integers, same⟩ := List.perm_comp_forall₂ permuted.symm others
    obtain ⟨m, member⟩ := exact.unbounded
    have exact' : ExactOperands (v :: ws) (n :: ks) :=
      ⟨.cons first integers, m, (permuted.cons v).mem_iff.mp member⟩
    obtain ⟨divided, dividing⟩ := divisors_perm 1 n same
    have nonzero' : 0 ∉ divisors (n :: ks) := fun zero => nonzero (dividing.mem_iff.mp zero)
    rw [run_div_eq_iff exact' nonzero', run_div_eq_iff exact nonzero, divided, dividing.prod_eq]
  · exact fun args numbers zero => run_div_zero numbers zero
  · intro v w a b exact nonzero
    obtain ⟨remainder, difference, quotient⟩ := run_remainder exact nonzero
    obtain ⟨sign, smaller⟩ := fmod_between a nonzero
    refine ⟨_, _, _, remainder, sign, smaller, difference, quotient, ?_⟩
    rw [Int.add_comm]
    exact Int.fmod_add_fdiv_mul a b

/-- Divisors of both kinds and signs in two orders, one that leaves a remainder, a zero beside a
fraction, and the remainder by a negative divisor. -/
theorem division_exact_iff_divides_of_mixed_divisors :
    let eight : Value := .number (.ofInt (-8))
    let args : List Value := [.bigNumber (10 ^ 20), eight, .bigNumber 5]
    let half : Value := .number (.ofRatio false 1 2)
    (ExactOperands args [10 ^ 20, -8, 5] ∧ 0 ∉ divisors [10 ^ 20, -8, (5 : Int)] ∧
      run .div args = .ok (.bigNumber (-2500000000000000000)) ∧
      run .div [.bigNumber (10 ^ 20), .bigNumber 5, eight] =
        .ok (.bigNumber (-2500000000000000000))) ∧
    (ExactOperands [.bigNumber 3] [3] ∧ LeavesIntegers (run .div [.bigNumber 3])) ∧
    RefusesZero (run .div [half, half, .bigNumber 0]) ∧
    ExactOperands [.bigNumber 29, eight] [29, -8] ∧ ∃ r d q,
      run .mod [.bigNumber 29, eight] = .ok (.bigNumber r) ∧ (r = 0 ∨ r.sign = -1) ∧
      r.natAbs < 8 ∧ run .sub [.bigNumber 29, .bigNumber r] = .ok d ∧
      run .div [d, eight] = .ok (.bigNumber q) ∧ q * -8 + r = 29 := by
  intro eight args half
  have integral : eight.IsInteger (-8) := Value.isInteger_number_iff.mpr (by decide +kernel)
  have exact : ExactOperands args [10 ^ 20, -8, 5] :=
    ⟨.cons (Value.isInteger_bigNumber _)
      (.cons integral (.cons (Value.isInteger_bigNumber 5) .nil)), 5, by simp [args]⟩
  have single : ExactOperands [.bigNumber 3] [3] :=
    ⟨.cons (Value.isInteger_bigNumber 3) .nil, 3, List.mem_cons_self⟩
  have pair : ExactOperands [.bigNumber 29, eight] [29, -8] :=
    ⟨.cons (Value.isInteger_bigNumber 29) (.cons integral .nil), 29, List.mem_cons_self⟩
  have nonzero : 0 ∉ divisors [10 ^ 20, -8, (5 : Int)] := by decide
  obtain ⟨onIntegers, onZero, onRemainders⟩ := division_exact_iff_divides
  obtain ⟨divisible, quotient, -, ordered⟩ := onIntegers args _ exact nonzero
  obtain ⟨q, ran⟩ := divisible.mpr ⟨-2500000000000000000, by decide⟩
  have product := quotient q ran
  have value : q = -2500000000000000000 := by
    simp only [divisors, dividend, List.tail_cons, List.prod_cons, List.prod_nil] at product
    omega
  rw [value] at ran
  have again := (ordered _ _ [.bigNumber 5, eight] rfl (.swap _ _ _) _).mpr ran
  refine ⟨⟨exact, nonzero, ran, again⟩, ⟨single, ?_⟩, ?_, pair, ?_⟩
  · exact (onIntegers _ _ single (by decide)).2.2.1 (by decide)
  · refine onZero _ (by simp [half, Value.IsNumber, Value.numeral?]) ⟨.bigNumber 0, ?_, ?_⟩
    · simp [divisors]
    · exact Value.isInteger_bigNumber 0
  · exact onRemainders _ _ _ _ pair (by decide)

end ModularLisp.Builtin
