import ModularLisp.Number.Literal
import ModularLisp.Number.Order

/-!
# Rounded integers

An integer is rounded at the exponent that leaves 53 bits before the point, whatever its size. So an
integer of at most 53 bits is its own rounding, one that is not zero never becomes zero, and exactly
those of size `rangeEnd` and more are rounded out of range.
-/

namespace ModularLisp.Binary64

variable {n : Nat}

theorem div_le_roundHalfEven (num den : Nat) : num / den ≤ roundHalfEven num den := by
  simp only [roundHalfEven]
  split
  · exact Nat.le_refl _
  · exact Nat.le_succ _

theorem roundHalfEven_le (num den : Nat) : roundHalfEven num den ≤ num / den + 1 := by
  simp only [roundHalfEven]
  split
  · exact Nat.le_succ _
  · exact Nat.le_refl _

theorem roundHalfEven_one (num : Nat) : roundHalfEven num 1 = num := by
  simp [roundHalfEven, Nat.mod_one]

/-- An integer whose leading bit stands at `log2 n` has that bit at `log2 n - exponent` when it is
scaled down. -/
theorem scaled_bounds (nonzero : n ≠ 0) (exponent : Int) (shift : Nat)
    (shifted : exponent + shift = Nat.log2 n) :
    twoPow shift ≤ (scaleDown n 1 exponent).1 / (scaleDown n 1 exponent).2 ∧
      (scaleDown n 1 exponent).1 / (scaleDown n 1 exponent).2 < twoPow (shift + 1) := by
  have least : 2 ^ Nat.log2 n ≤ n := Nat.log2_self_le nonzero
  have below : n < 2 ^ (Nat.log2 n + 1) := Nat.lt_log2_self
  simp only [scaleDown, twoPow, Nat.pow_eq]
  split
  · have split : Nat.log2 n = shift + exponent.toNat := by omega
    have next : Nat.log2 n + 1 = shift + 1 + exponent.toNat := by omega
    rw [split, Nat.pow_add] at least
    rw [next, Nat.pow_add] at below
    have positive : 0 < 2 ^ exponent.toNat := Nat.two_pow_pos _
    rw [Nat.one_mul, Nat.le_div_iff_mul_le positive, Nat.div_lt_iff_lt_mul positive]
    exact ⟨least, below⟩
  · have split : shift = Nat.log2 n + (-exponent).toNat := by omega
    have positive : 0 < 2 ^ (-exponent).toNat := Nat.two_pow_pos _
    rw [Nat.div_one, split, Nat.add_right_comm, Nat.pow_add, Nat.pow_add]
    exact ⟨Nat.mul_le_mul_right _ least, Nat.mul_lt_mul_of_pos_right below positive⟩

theorem log2_lt_of_lt {k : Nat} (nonzero : n ≠ 0) (small : n < twoPow k) : Nat.log2 n < k :=
  (Nat.log2_lt nonzero).mpr small

theorem lt_of_log2_lt {k : Nat} (nonzero : n ≠ 0) (bits : Nat.log2 n < k) : n < twoPow k :=
  (Nat.log2_lt nonzero).mp bits

theorem le_of_le_log2 {k : Nat} (nonzero : n ≠ 0) (bits : k ≤ Nat.log2 n) : twoPow k ≤ n :=
  (Nat.le_log2 nonzero).mp bits

theorem exponentOf_integer (nonzero : n ≠ 0) : exponentOf n 1 = (Nat.log2 n : Int) - 52 := by
  have guess : max ((Nat.log2 n : Int) - Nat.log2 1 - 53) (-1074) = (Nat.log2 n : Int) - 53 := by
    have one : Nat.log2 1 = 0 := by decide
    omega
  have large := (scaled_bounds nonzero ((Nat.log2 n : Int) - 53) 53 (by omega)).1
  simp only [exponentOf, guess, if_neg (Nat.not_lt.mpr large)]
  omega

/-- The 53 bits that an integer is rounded to; one bit more if rounding carries. -/
def mantissaOf (n : Nat) : Nat :=
  let scaled := scaleDown n 1 ((Nat.log2 n : Int) - 52)
  roundHalfEven scaled.1 scaled.2

theorem ofRatio_integer (nonzero : n ≠ 0) (negative : Bool) :
    ofRatio negative n 1 =
      if mantissaOf n = twoPow 53 then pack negative (twoPow 52) ((Nat.log2 n : Int) - 52 + 1)
      else pack negative (mantissaOf n) ((Nat.log2 n : Int) - 52) := by
  rw [ofRatio, if_neg nonzero, exponentOf_integer nonzero]
  rfl

theorem mantissaOf_bounds (nonzero : n ≠ 0) :
    twoPow 52 ≤ mantissaOf n ∧ mantissaOf n ≤ twoPow 53 := by
  have bounds := scaled_bounds nonzero ((Nat.log2 n : Int) - 52) 52 (by omega)
  have lower := div_le_roundHalfEven (scaleDown n 1 ((Nat.log2 n : Int) - 52)).1
    (scaleDown n 1 ((Nat.log2 n : Int) - 52)).2
  have upper := roundHalfEven_le (scaleDown n 1 ((Nat.log2 n : Int) - 52)).1
    (scaleDown n 1 ((Nat.log2 n : Int) - 52)).2
  have next : twoPow (52 + 1) = twoPow 53 := rfl
  simp only [mantissaOf]
  omega

theorem pack_not_zero {mantissa : Nat} (positive : 0 < mantissa) (negative : Bool)
    (exponent : Int) : (pack negative mantissa exponent).isZero = false := by
  simp only [pack]
  split
  · cases mantissa with
    | zero => cases positive
    | succ m => rfl
  · rfl

theorem ofInt_not_zero {n : Int} (nonzero : n ≠ 0) : (ofInt n).isZero = false := by
  have size : n.natAbs ≠ 0 := Int.natAbs_ne_zero.mpr nonzero
  have full := (mantissaOf_bounds size).1
  rw [ofInt, ofRatio_integer size]
  split
  · exact pack_not_zero (twoPow_pos 52) _ _
  · exact pack_not_zero (Nat.lt_of_lt_of_le (twoPow_pos 52) full) _ _

theorem pack_of_canonical {mantissa : Nat} {exponent : Int}
    (canonical : Canonical mantissa exponent) (negative : Bool) :
    pack negative mantissa exponent = .finite negative mantissa exponent canonical :=
  dif_pos canonical

/-- The least integer that rounds beyond the range. It lies halfway between the greatest finite
number and the next power of two, and of these two mantissas the power has the even one. -/
def rangeEnd : Nat := (twoPow 54 - 1) * twoPow 970

theorem rangeEnd_bounds : twoPow 1023 ≤ rangeEnd ∧ rangeEnd < twoPow 1024 := by decide +kernel

/-- At the greatest exponent rounding carries from the end of the range on. -/
theorem mantissaOf_carries_iff (top : Nat.log2 n = 1023) :
    mantissaOf n = twoPow 53 ↔ rangeEnd ≤ n := by
  have nonzero : n ≠ 0 := by
    rintro rfl
    cases top
  have exponent : (Nat.log2 n : Int) - 52 = (971 : Nat) := by omega
  have scaled : mantissaOf n = roundHalfEven n (twoPow 971) := by
    simp only [mantissaOf, exponent, scaleDown, Int.natCast_nonneg, if_true, Int.toNat_natCast,
      Nat.one_mul]
  have below : n / twoPow 971 < twoPow 53 := by
    rw [Nat.div_lt_iff_lt_mul (twoPow_pos 971), ← twoPow_add]
    exact lt_of_log2_lt nonzero (by omega)
  have bits : twoPow 53 = 9007199254740992 := by decide
  have odd : twoPow 54 - 1 = 18014398509481983 := by decide
  have twice : twoPow 971 = twoPow 970 * 2 := twoPow_succ 970
  have parts := Nat.div_add_mod n (twoPow 971)
  have rest := Nat.mod_lt n (twoPow_pos 971)
  rw [scaled, rangeEnd, odd]
  by_cases last : n / twoPow 971 = 9007199254740991
  · -- the mantissa before rounding is odd, so a tie carries
    rw [last] at parts
    simp only [roundHalfEven, last, bits]
    split <;> omega
  · have smaller : n < 9007199254740991 * twoPow 971 :=
      (Nat.div_lt_iff_lt_mul (twoPow_pos 971)).mp (by omega)
    have upper := roundHalfEven_le n (twoPow 971)
    omega

/-- A full mantissa is beyond the range by its exponent only. -/
theorem pack_isInfinite_iff {mantissa : Nat} {exponent : Int} (full : twoPow 52 ≤ mantissa)
    (fits : mantissa < twoPow 53) (least : -1074 ≤ exponent) (negative : Bool) :
    (pack negative mantissa exponent).isInfinite = true ↔ 971 < exponent := by
  rw [pack]
  split
  · rename_i canonical
    exact iff_of_false Bool.false_ne_true (Int.not_lt.mpr canonical.exponent_le)
  · rename_i beyond
    refine iff_of_true rfl (Int.not_le.mp fun within => ?_)
    exact beyond ⟨fits, least, within, .inl full⟩

theorem ofRatio_isInfinite_iff (negative : Bool) :
    (ofRatio negative n 1).isInfinite = true ↔ rangeEnd ≤ n := by
  obtain ⟨above, within⟩ := rangeEnd_bounds
  by_cases zero : n = 0
  · rw [ofRatio, if_pos zero]
    have positive := twoPow_pos 1023
    exact iff_of_false Bool.false_ne_true (by omega)
  obtain ⟨full, least⟩ := mantissaOf_bounds zero
  have rounded : (ofRatio negative n 1).isInfinite = true ↔
      1023 < Nat.log2 n ∨ Nat.log2 n = 1023 ∧ mantissaOf n = twoPow 53 := by
    rw [ofRatio_integer zero]
    split
    · rename_i carried
      rw [pack_isInfinite_iff (Nat.le_refl _) (by decide) (by omega)]
      omega
    · rename_i fits
      rw [pack_isInfinite_iff full (Nat.lt_of_le_of_ne least fits) (by omega)]
      omega
  rw [rounded]
  rcases Nat.lt_trichotomy (Nat.log2 n) 1023 with small | top | large
  · have inside := lt_of_log2_lt zero small
    omega
  · rw [mantissaOf_carries_iff top]
    omega
  · have outside : twoPow 1024 ≤ n := le_of_le_log2 zero large
    omega

theorem ofInt?_eq_none_iff {k : Int} : ofInt? k = none ↔ rangeEnd ≤ k.natAbs := by
  rw [← ofRatio_isInfinite_iff (decide (k < 0)), ofInt?, ofInt]
  split
  · rename_i infinite
    exact iff_of_true rfl infinite
  · rename_i finite
    exact iff_of_false nofun finite

theorem mantissaOf_exact (bits : Nat.log2 n ≤ 52) :
    mantissaOf n = n * twoPow (52 - Nat.log2 n) := by
  have scaled : scaleDown n 1 ((Nat.log2 n : Int) - 52) = (n * twoPow (52 - Nat.log2 n), 1) := by
    rw [scaleDown]
    split
    · have whole : Nat.log2 n = 52 := by omega
      rw [whole]
      simp [twoPow_zero]
    · have shift : (-((Nat.log2 n : Int) - 52)).toNat = 52 - Nat.log2 n := by omega
      rw [shift]
  rw [mantissaOf, scaled, roundHalfEven_one]

theorem units?_zero (negative : Bool) : (zero negative).units? = some 0 := by
  simp [zero, units?, magnitude]

/-- An integer of at most 53 bits is rounded to itself. -/
theorem ofRatio_exact (small : n < twoPow 53) (negative : Bool) :
    (ofRatio negative n 1).units? = some (NumberLiteral.signed negative n * unitsPerOne) := by
  by_cases zero : n = 0
  · have none : NumberLiteral.signed negative 0 = 0 := by cases negative <;> rfl
    rw [zero, ofRatio, if_pos rfl, units?_zero, none, Int.zero_mul]
  have bits : Nat.log2 n ≤ 52 := Nat.le_of_lt_succ (log2_lt_of_lt zero small)
  obtain ⟨full, -⟩ := mantissaOf_bounds zero
  have below : mantissaOf n < twoPow 53 := by
    have top : twoPow (Nat.log2 n + 1) * twoPow (52 - Nat.log2 n) = twoPow 53 := by
      rw [← twoPow_add]
      congr 1
      omega
    rw [mantissaOf_exact bits, ← top]
    exact Nat.mul_lt_mul_of_pos_right Nat.lt_log2_self (twoPow_pos _)
  have canonical : Canonical (mantissaOf n) ((Nat.log2 n : Int) - 52) :=
    ⟨below, by omega, by omega, .inl full⟩
  have size : magnitude (mantissaOf n) ((Nat.log2 n : Int) - 52) = n * unitsPerOne := by
    have whole : 52 - Nat.log2 n + ((Nat.log2 n : Int) - 52 + 1074).toNat = 1074 := by omega
    rw [magnitude, mantissaOf_exact bits, Nat.mul_assoc, ← twoPow_add, whole, unitsPerOne]
  rw [ofRatio_integer zero, if_neg (Nat.ne_of_lt below), pack_of_canonical canonical]
  simp only [units?, size]
  generalize unitsPerOne = units
  cases negative <;>
    simp only [NumberLiteral.signed, Bool.false_eq_true, if_true, if_false, Int.natCast_mul,
      Int.neg_mul]

theorem units?_of_toInt? {x : Binary64} {k : Int} (integral : x.toInt? = some k) :
    x.units? = some (k * unitsPerOne) := by
  obtain ⟨units, known, whole⟩ := Option.bind_eq_some_iff.mp integral
  split at whole
  · rename_i divides
    cases whole
    rw [known, Int.ediv_mul_cancel (Int.dvd_of_emod_eq_zero divides)]
  · cases whole

theorem extended?_of_units? {x : Binary64} {units : Int} (known : x.units? = some units) :
    x.extended? = some (.point units) := by
  cases x with
  | nan | infinity => cases known
  | finite negative mantissa exponent canonical =>
    rw [extended?, known]
    rfl

theorem toInt?_of_extended? {x : Binary64} {k : Int}
    (exact : x.extended? = some (.point (k * unitsPerOne))) : x.toInt? = some k := by
  have positive : (unitsPerOne : Int) ≠ 0 :=
    Int.natCast_ne_zero.mpr (Nat.ne_of_gt (twoPow_pos 1074))
  have known : x.units? = some (k * unitsPerOne) := by
    cases x with
    | nan => cases exact
    | infinity negative => cases negative <;> cases exact
    | finite negative mantissa exponent canonical =>
      rw [extended?, Option.map_eq_some_iff] at exact
      obtain ⟨units, known, same⟩ := exact
      cases same
      exact known
  rw [toInt?, known, Option.bind_some, if_pos (Int.mul_emod_left _ _),
    Int.mul_ediv_cancel _ positive]

theorem width_le_iff {k : Nat} (positive : 0 < k) : Decimal.width n ≤ k ↔ n < tenPow k :=
  Nat.length_toDigits_le_iff (by decide) positive

theorem ofDecimal_integer (small : n < tenPow 400) (negative : Bool) :
    ofDecimal negative ⟨n, 0⟩ = ofRatio negative n 1 := by
  have width : Decimal.width n ≤ 400 := (width_le_iff (by decide)).mpr small
  have least : ¬ (0 : Int) + Decimal.width n < -400 := by omega
  have greatest : ¬ 400 < (0 : Int) + Decimal.width n := by omega
  simp only [ofDecimal, least, greatest, or_false, if_false, Decimal.ratio, Int.le_refl, if_true,
    Int.toNat_zero, tenPow_zero, Nat.mul_one]
  split
  · rename_i zero
    rw [zero, ofRatio, if_pos rfl]
  · rfl

/-- A decimal integer overflows when it is rounded, or at once if it has very many digits. -/
theorem ofDecimal_isInfinite_iff (n : Nat) (negative : Bool) :
    (ofDecimal negative ⟨n, 0⟩).isInfinite = true ↔ rangeEnd ≤ n := by
  by_cases small : n < tenPow 400
  · rw [ofDecimal_integer small, ofRatio_isInfinite_iff]
  · have width : ¬ Decimal.width n ≤ 400 := fun le => small ((width_le_iff (by decide)).mp le)
    have leading : 400 < (0 : Int) + Decimal.width n := by omega
    have nonzero : ¬ (n = 0 ∨ (0 : Int) + Decimal.width n < -400) := by
      have positive := tenPow_pos 400
      omega
    have beyond : rangeEnd ≤ tenPow 400 := by decide +kernel
    simp only [ofDecimal, nonzero, leading, if_true, if_false]
    exact iff_of_true rfl (Nat.le_trans beyond (Nat.le_of_not_lt small))

end ModularLisp.Binary64
