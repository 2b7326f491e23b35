import ModularLisp.Proofs.Rounding
import ModularLisp.Value.Equality

/-!
# Exact values

A number of either kind stands for a point of the extended line, its exact value; only not a number
stands for none. Two numbers are equal exactly if they stand for the same point, whatever their
kinds, and a number is an integer of unbounded size or an integral number exactly if its point is an
integer.
-/

namespace ModularLisp

theorem Binary64.extended?_eq_none_iff {x : Binary64} : x.extended? = none ↔ x = .nan := by
  cases x <;> simp [extended?, units?]

theorem Numeral.same_iff {a b : Numeral} :
    a.same b = true ↔ ∃ p, a.extended? = some p ∧ b.extended? = some p := by
  rw [same, compareBy]
  cases a.extended? with
  | none => simp
  | some p =>
    cases b.extended? with
    | none => simp
    | some q =>
      simp only [beq_iff_eq, Option.some.injEq, exists_eq_left']
      exact eq_comm

namespace Value

def IsNumber (v : Value) : Prop := v.numeral?.isSome = true

/-- The exact value of a number of either kind. -/
def point? (v : Value) : Option Extended := v.numeral?.bind Numeral.extended?

theorem point?_of_numeral? {v : Value} {a : Numeral} (known : v.numeral? = some a) :
    v.point? = a.extended? := by
  rw [point?, known]
  rfl

theorem isNumber_of_point? {v : Value} {p : Extended} (known : v.point? = some p) :
    v.IsNumber := by
  rw [IsNumber, Option.isSome_iff_exists]
  obtain ⟨a, numeral, -⟩ := Option.bind_eq_some_iff.mp known
  exact ⟨a, numeral⟩

/-- A number equals what stands for the same point. -/
theorem same_number_iff {v w : Value} (number : v.IsNumber) :
    v.same w = true ↔ ∃ p, v.point? = some p ∧ w.point? = some p := by
  obtain ⟨a, known⟩ := Option.isSome_iff_exists.mp number
  have compared : v.same w = (w.numeral?.map a.same).getD false := by
    cases v with
    | number | bigNumber =>
      cases known
      rw [same]
    | _ => cases known
  rw [compared, point?_of_numeral? known]
  cases other : w.numeral? with
  | none => simp [point?, other]
  | some b => simp [point?_of_numeral? other, Numeral.same_iff]

theorem sameAll_cons {v w : Value} {vs ws : List Value} :
    sameAll (w :: ws) (v :: vs) = true ↔ w.same v = true ∧ sameAll ws vs = true := by
  rw [sameAll, Bool.and_eq_true_iff]

/-- A value that is an integer exactly, of either kind. -/
def IsInteger (v : Value) (n : Int) : Prop :=
  ∃ a, v.numeral? = some a ∧ a.extended? = some (.point (n * Binary64.unitsPerOne))

theorem isInteger_bigNumber (n : Int) : (bigNumber n).IsInteger n := ⟨.integer n, rfl, rfl⟩

theorem isInteger_number {x : Binary64} {n : Int}
    (known : x.units? = some (n * Binary64.unitsPerOne)) : (number x).IsInteger n :=
  ⟨.real x, rfl, Binary64.extended?_of_units? known⟩

namespace IsInteger

variable {v w : Value} {m n : Int}

theorem point? (integer : v.IsInteger n) :
    v.point? = some (.point (n * Binary64.unitsPerOne)) := by
  obtain ⟨a, known, exact⟩ := integer
  rw [point?_of_numeral? known, exact]

theorem isNumber (integer : v.IsInteger n) : v.IsNumber := by
  obtain ⟨a, known, -⟩ := integer
  rw [IsNumber, known]
  rfl

theorem unique (first : v.IsInteger m) (second : v.IsInteger n) : m = n := by
  have same := first.point?.symm.trans second.point?
  have units := Extended.point.inj (Option.some.inj same)
  have positive : (Binary64.unitsPerOne : Int) ≠ 0 :=
    Int.natCast_ne_zero.mpr (Nat.ne_of_gt (twoPow_pos 1074))
  exact Int.eq_of_mul_eq_mul_right positive units

theorem same (hv : v.IsInteger n) (hw : w.IsInteger n) : v.same w = true :=
  (same_number_iff hv.isNumber).mpr ⟨_, hv.point?, hw.point?⟩

end IsInteger

theorem isInteger_number_iff {x : Binary64} {n : Int} :
    (number x).IsInteger n ↔ x.toInt? = some n := by
  constructor
  · rintro ⟨_, ⟨⟩, exact⟩
    exact Binary64.toInt?_of_extended? exact
  · intro integral
    exact isInteger_number (Binary64.units?_of_toInt? integral)

end Value

end ModularLisp
