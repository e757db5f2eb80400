import EntityGraph.Number.Decimal
import Mathlib.Algebra.Order.Field.Power
import Mathlib.Data.Rat.Cast.Order
import Mathlib.Tactic.FieldSimp
import Mathlib.Tactic.Linarith
import Mathlib.Tactic.NormNum
import Mathlib.Tactic.Positivity
import Mathlib.Tactic.Ring

/-! Rounding a fraction to the nearest double.

Every double has an interval of numbers around it, and the numbers of the interval are the ones that round to it. -/

namespace EntityGraph

variable {r : Ratio} {n : Nat}

namespace Shortest

/-- The number that a fraction is. -/
def Ratio.value (r : Ratio) : ℚ :=
  r.num / r.den

/-- The number lies between the ends, which belong to the interval if it is closed. -/
def Interval.Contains (i : Interval) (v : ℚ) : Prop :=
  if i.closed then (i.low : ℚ) * 2 ^ i.unit ≤ v ∧ v ≤ (i.high : ℚ) * 2 ^ i.unit
  else (i.low : ℚ) * 2 ^ i.unit < v ∧ v < (i.high : ℚ) * 2 ^ i.unit

end Shortest

namespace Decimal

open Shortest

variable {num den m : Nat} {e : Int}

/-- A quotient rounds to a whole number that is no further than a half from it. Of two that are a half away it is the
even one. -/
theorem roundDiv_eq (positive : 0 < den) (low : 2 * (m * den) ≤ 2 * num + den) (high : 2 * num ≤ 2 * (m * den) + den)
    (ties : m % 2 = 0 ∨ (2 * (m * den) < 2 * num + den ∧ 2 * num < 2 * (m * den) + den)) : roundDiv num den = m := by
  have parts := Nat.div_add_mod num den
  have small := Nat.mod_lt num positive
  rw [Nat.mul_comm] at parts
  -- The whole number is the floor or the one above it: any other is too far away.
  have least : num / den ≤ m := by
    by_contra below
    have step : (m + 1) * den ≤ num / den * den := Nat.mul_le_mul_right den (by omega)
    rw [Nat.add_mul] at step
    omega
  have most : m ≤ num / den + 1 := by
    by_contra above
    have step : (num / den + 2) * den ≤ m * den := Nat.mul_le_mul_right den (by omega)
    rw [Nat.add_mul] at step
    omega
  unfold roundDiv
  obtain rfl | rfl : m = num / den ∨ m = num / den + 1 := by omega
  · dsimp only
    split
    · rfl
    · split <;> omega
  · rw [Nat.add_mul] at low high ties
    dsimp only
    split
    · omega
    · split <;> omega

/-- The whole number of units of `2 ^ scale` that a fraction rounds to. -/
def roundAt (r : Ratio) (scale : Int) : Nat :=
  if 0 ≤ scale then roundDiv r.num (r.den * Nat.pow 2 scale.toNat)
  else roundDiv (r.num * Nat.pow 2 (-scale).toNat) r.den

/-- The rounded bits, also those past the largest double. -/
def roundedBits (r : Ratio) : Nat :=
  let scale := max (leadingBit r - 52) (-1074)
  (scale + 1074).toNat * Nat.pow 2 52 + roundAt r scale

theorem roundBits?_eq (r : Ratio) :
    roundBits? r = if roundedBits r < 2047 * Nat.pow 2 52 then some (roundedBits r) else none := rfl

theorem lt_of_roundBits? {bits : Nat} (rounded : roundBits? r = some bits) : bits < 2047 * 2 ^ 52 := by
  rw [roundBits?_eq] at rounded
  split at rounded
  · rename_i small
    cases rounded
    exact small
  · cases rounded

/-- A fraction in lowest or other terms rounds by its value. -/
theorem roundDiv_eq_of_value (positive : 0 < den) (low : (m : ℚ) - 1 / 2 ≤ num / den)
    (high : (num : ℚ) / den ≤ m + 1 / 2)
    (ties : m % 2 = 0 ∨ ((m : ℚ) - 1 / 2 < num / den ∧ (num : ℚ) / den < m + 1 / 2)) : roundDiv num den = m := by
  have den_pos : (0 : ℚ) < den := by exact_mod_cast positive
  -- With the denominator moved to the other side all comparisons are among whole numbers.
  rw [le_div_iff₀ den_pos] at low
  rw [div_le_iff₀ den_pos] at high
  rw [lt_div_iff₀ den_pos, div_lt_iff₀ den_pos] at ties
  refine roundDiv_eq positive ?_ ?_ (ties.imp_right fun strict => ⟨?_, ?_⟩)
  · have : (2 * (m * den) : ℚ) ≤ 2 * num + den := by linarith
    exact_mod_cast this
  · have : (2 * num : ℚ) ≤ 2 * (m * den) + den := by linarith
    exact_mod_cast this
  · have : (2 * (m * den) : ℚ) < 2 * num + den := by linarith [strict.1]
    exact_mod_cast this
  · have : (2 * num : ℚ) < 2 * (m * den) + den := by linarith [strict.2]
    exact_mod_cast this

theorem zpow_toNat (base : Nat) (positive : 0 ≤ e) : ((Nat.pow base e.toNat : Nat) : ℚ) = (base : ℚ) ^ e := by
  rw [Nat.pow_eq, Nat.cast_pow, ← zpow_natCast, Int.toNat_of_nonneg positive]

theorem roundAt_eq {scale : Int} (positive : 0 < r.den)
    (low : ((m : ℚ) - 1 / 2) * 2 ^ scale ≤ r.value) (high : r.value ≤ ((m : ℚ) + 1 / 2) * 2 ^ scale)
    (ties : m % 2 = 0 ∨ (((m : ℚ) - 1 / 2) * 2 ^ scale < r.value ∧ r.value < ((m : ℚ) + 1 / 2) * 2 ^ scale)) :
    roundAt r scale = m := by
  have unit : (0 : ℚ) < 2 ^ scale := by positivity
  -- Everything is counted in units of the scale.
  rw [← le_div_iff₀ unit] at low
  rw [← div_le_iff₀ unit] at high
  rw [← lt_div_iff₀ unit, ← div_lt_iff₀ unit] at ties
  unfold roundAt
  split
  · -- The unit is a whole number and goes to the denominator.
    rename_i upward
    have same : (r.num : ℚ) / ((r.den * Nat.pow 2 scale.toNat : Nat) : ℚ) = r.value / 2 ^ scale := by
      rw [Nat.cast_mul, zpow_toNat 2 upward, Ratio.value, div_div, Nat.cast_ofNat]
    rw [← same] at low high ties
    exact roundDiv_eq_of_value (Nat.mul_pos positive (Nat.pow_pos (by decide))) low high ties
  · -- The unit is a fraction, and its denominator goes to the numerator.
    rename_i downward
    have same : ((r.num * Nat.pow 2 (-scale).toNat : Nat) : ℚ) / r.den = r.value / 2 ^ scale := by
      rw [Nat.cast_mul, zpow_toNat 2 (by omega), Ratio.value, Nat.cast_ofNat, zpow_neg]
      field_simp
    rw [← same] at low high ties
    exact roundDiv_eq_of_value positive low high ties

theorem exponent_lt {a b : Int} (powers : (2 : ℚ) ^ a < 2 ^ b) : a < b :=
  (zpow_lt_zpow_iff_right₀ (by norm_num : (1 : ℚ) < 2)).mp powers

/-- The logarithm of a whole number tells between which powers of two it lies. -/
theorem log2_bounds (positive : 0 < n) : (2 : ℚ) ^ (n.log2 : Int) ≤ n ∧ (n : ℚ) < 2 ^ ((n.log2 : Int) + 1) := by
  -- The library has both bounds with natural exponents.
  have low := Nat.log2_self_le (Nat.ne_of_gt positive)
  have high := @Nat.lt_log2_self n
  rw [zpow_add_one₀ (by norm_num), zpow_natCast, ← pow_succ]
  exact ⟨by exact_mod_cast low, by exact_mod_cast high⟩

/-- The leading bit tells between which powers of two a fraction lies. -/
theorem leadingBit_bounds (num : 0 < r.num) (den : 0 < r.den) :
    (2 : ℚ) ^ leadingBit r ≤ r.value ∧ r.value < 2 ^ (leadingBit r + 1) := by
  have den_pos : (0 : ℚ) < r.den := by exact_mod_cast den
  obtain ⟨num_low, num_high⟩ := log2_bounds num
  obtain ⟨den_low, den_high⟩ := log2_bounds den
  -- The difference of the logarithms is right or one too large.
  have below : r.value < 2 ^ ((r.num.log2 : Int) - r.den.log2 + 1) := by
    rw [Ratio.value, div_lt_iff₀ den_pos]
    calc (r.num : ℚ) < 2 ^ ((r.num.log2 : Int) + 1) := num_high
      _ = 2 ^ ((r.num.log2 : Int) - r.den.log2 + 1) * 2 ^ (r.den.log2 : Int) := by
        rw [← zpow_add₀ (by norm_num)]
        congr 1
        omega
      _ ≤ 2 ^ ((r.num.log2 : Int) - r.den.log2 + 1) * r.den := by gcongr
  have above : (2 : ℚ) ^ ((r.num.log2 : Int) - r.den.log2 - 1) ≤ r.value := by
    rw [Ratio.value, le_div_iff₀ den_pos]
    calc (2 : ℚ) ^ ((r.num.log2 : Int) - r.den.log2 - 1) * r.den
        ≤ 2 ^ ((r.num.log2 : Int) - r.den.log2 - 1) * 2 ^ ((r.den.log2 : Int) + 1) := by gcongr
      _ = 2 ^ (r.num.log2 : Int) := by
        rw [← zpow_add₀ (by norm_num)]
        congr 1
        omega
      _ ≤ r.num := num_low
  -- The code corrects the guess by a comparison of whole numbers, on the side where the power is one.
  have test : (if 0 ≤ (r.num.log2 : Int) - r.den.log2 then
        r.den * Nat.pow 2 ((r.num.log2 : Int) - r.den.log2).toNat ≤ r.num
      else r.den ≤ r.num * Nat.pow 2 (-((r.num.log2 : Int) - r.den.log2)).toNat) ↔
      (2 : ℚ) ^ ((r.num.log2 : Int) - r.den.log2) ≤ r.value := by
    generalize (r.num.log2 : Int) - r.den.log2 = guess
    rw [Ratio.value, le_div_iff₀ den_pos]
    split
    · rename_i upward
      rw [← Nat.cast_le (α := ℚ), Nat.cast_mul, zpow_toNat 2 upward, mul_comm, Nat.cast_ofNat]
    · rename_i downward
      rw [← Nat.cast_le (α := ℚ), Nat.cast_mul, zpow_toNat 2 (by omega), Nat.cast_ofNat, zpow_neg, ← div_eq_mul_inv,
        le_div_iff₀ (by positivity), mul_comm]
  unfold leadingBit
  dsimp only
  by_cases reached : (2 : ℚ) ^ ((r.num.log2 : Int) - r.den.log2) ≤ r.value
  · rw [if_pos (test.mpr reached)]
    exact ⟨reached, below⟩
  · rw [if_neg (mt test.mp reached), sub_add_cancel]
    exact ⟨above, not_le.mp reached⟩

/-- A fraction no further than half a unit from `m` units of `2 ^ e` gets the bits of `m` and `e`. Below a power of two
the unit is half as large. -/
theorem roundedBits_eq (num : 0 < r.num) (den : 0 < r.den) (size : m < 2 ^ 53)
    (least : -1074 ≤ e) (normal : 2 ^ 52 ≤ m ∨ e = -1074)
    (low : ((m : ℚ) - 1 / 2) * 2 ^ e ≤ r.value) (high : r.value ≤ ((m : ℚ) + 1 / 2) * 2 ^ e)
    (ties : m % 2 = 0 ∨ (((m : ℚ) - 1 / 2) * 2 ^ e < r.value ∧ r.value < ((m : ℚ) + 1 / 2) * 2 ^ e))
    (tight : m = 2 ^ 52 → -1074 < e → ((m : ℚ) - 1 / 4) * 2 ^ e ≤ r.value) :
    roundedBits r = (e + 1074).toNat * 2 ^ 52 + m := by
  obtain ⟨reached, passed⟩ := leadingBit_bounds num den
  have unit : (0 : ℚ) < 2 ^ e := by positivity
  -- The significand has fifty-three bits, so adding half a unit does not reach the next power.
  have largest : (m : ℚ) ≤ 2 ^ 53 - 1 := by
    have : (m : ℚ) + 1 ≤ 2 ^ 53 := by exact_mod_cast size
    linarith
  by_cases under : r.value < 2 ^ (52 + e) ∧ -1074 < e
  · -- Just below a power of two the unit is half as large, and rounding up gives the power.
    obtain ⟨under, subnormal⟩ := under
    -- A larger significand would keep the fraction above the power.
    have power : m = 2 ^ 52 := by
      by_contra other
      have next : (2 : ℚ) ^ 52 + 1 ≤ m := by exact_mod_cast (by omega : 2 ^ 52 + 1 ≤ m)
      rw [zpow_add₀ (by norm_num)] at under
      have : (2 ^ 52 : ℚ) * 2 ^ e ≤ ((m : ℚ) - 1 / 2) * 2 ^ e := by
        gcongr
        linarith
      norm_num at under this
      linarith
    have near := tight power subnormal
    have halved : (2 : ℚ) ^ e = 2 * 2 ^ (e - 1) := by
      rw [← zpow_one_add₀ (by norm_num)]
      congr 1
      omega
    have half_unit : (0 : ℚ) < 2 ^ (e - 1) := by positivity
    -- The leading bit is one place lower, since a quarter of a unit is all that is missing.
    have leading : leadingBit r = 51 + e := by
      have least : leadingBit r < 52 + e := exponent_lt (reached.trans_lt under)
      have below : (2 : ℚ) ^ (51 + e) < r.value := by
        rw [zpow_add₀ (by norm_num)]
        refine lt_of_lt_of_le ?_ near
        subst power
        gcongr
        norm_num
      have most : 51 + e < leadingBit r + 1 := exponent_lt (below.trans passed)
      omega
    have scale : max (leadingBit r - 52) (-1074) = e - 1 := by omega
    have rounds : roundAt r (e - 1) = 2 ^ 53 := by
      subst power
      rw [zpow_add₀ (by norm_num), halved] at under
      rw [halved] at near
      push_cast at near
      norm_num at under near
      refine roundAt_eq den ?_ ?_ (.inl (by norm_num))
      · push_cast
        linarith
      · push_cast
        linarith
    unfold roundedBits
    simp only [scale, rounds, power, Nat.pow_eq]
    omega
  · -- Everywhere else the leading bit stands where that of the double does, or below all normal doubles.
    have bounded : r.value < 2 ^ (53 + e) := by
      rw [zpow_add₀ (by norm_num)]
      refine high.trans_lt ?_
      gcongr
      norm_num
      linarith
    -- Between the two powers around the double the leading bit is fixed.
    have most : leadingBit r < 53 + e := exponent_lt (reached.trans_lt bounded)
    have scale : max (leadingBit r - 52) (-1074) = e := by
      by_cases lowest : e = -1074
      · omega
      · have above : (2 : ℚ) ^ (52 + e) ≤ r.value := not_lt.mp fun under' => under ⟨under', by omega⟩
        have : 52 + e < leadingBit r + 1 := exponent_lt (above.trans_lt passed)
        omega
    unfold roundedBits
    simp only [scale, roundAt_eq den low high ties, Nat.pow_eq]

end Decimal

namespace Double

/-- The bits without the sign. -/
def magnitudeBits (x : Double) : Nat :=
  x.exponentBits * 2 ^ 52 + x.fractionBits

/-- A double is its sign and its magnitude. -/
theorem ofMagnitude_magnitudeBits (x : Double) : ofMagnitude x.negative x.magnitudeBits = x := by
  obtain ⟨bits⟩ := x
  have size := bits.toNat_lt
  unfold ofMagnitude negative magnitudeBits exponentBits fractionBits
  simp only [Nat.pow_eq]
  congr 1
  -- The sign is the topmost bit, and the arithmetic on the others does not reach it.
  refine (UInt64.toNat_inj).mp ?_
  split
  · rename_i sign
    rw [beq_iff_eq] at sign
    simp only [Nat.toUInt64, UInt64.toNat_ofNat']
    omega
  · rename_i sign
    rw [beq_iff_eq] at sign
    simp only [Nat.toUInt64, UInt64.toNat_ofNat']
    omega

theorem fractionBits_lt (x : Double) : x.fractionBits < 2 ^ 52 :=
  Nat.mod_lt _ (by decide)

theorem exponentBits_lt (x : Double) : x.exponentBits < 2 ^ 11 :=
  Nat.mod_lt _ (by decide)

theorem significand_lt (x : Double) : x.significand < 2 ^ 53 := by
  have fraction := x.fractionBits_lt
  unfold significand
  simp only [Nat.pow_eq]
  split <;> omega

theorem scale_least (x : Double) : -1074 ≤ x.scale := by
  unfold scale
  split <;> omega

/-- A double has all its bits, or the lowest scale. -/
theorem normal_or_lowest (x : Double) : 2 ^ 52 ≤ x.significand ∨ x.scale = -1074 := by
  unfold significand scale
  simp only [Nat.pow_eq]
  split
  · exact .inr rfl
  · exact .inl (by omega)

theorem tight_iff (x : Double) :
    (x.fractionBits = 0 ∧ 1 < x.exponentBits) ↔ (x.significand = 2 ^ 52 ∧ -1074 < x.scale) := by
  have fraction := x.fractionBits_lt
  unfold significand scale
  simp only [Nat.pow_eq]
  split <;> omega

/-- Scale and significand make up the bits. -/
theorem bits_eq (x : Double) : (x.scale + 1074).toNat * 2 ^ 52 + x.significand = x.magnitudeBits := by
  -- A normal double carries its hidden bit into the exponent.
  unfold magnitudeBits significand scale
  simp only [Nat.pow_eq]
  split <;> omega

end Double

namespace Shortest

variable {x : Double} {v : ℚ}

/-- The lower end is one quarter of a unit below a power of two, and two quarters below any other double. -/
theorem low_eq (positive : 0 < x.significand) :
    ((x.significand = 2 ^ 52 ∧ -1074 < x.scale) ∧ ((interval x).low : ℚ) = 4 * x.significand - 1) ∨
      (¬ (x.significand = 2 ^ 52 ∧ -1074 < x.scale) ∧ ((interval x).low : ℚ) = 4 * x.significand - 2) := by
  rw [← x.tight_iff]
  unfold interval
  -- The subtraction does not stop at zero, because the significand is positive.
  by_cases tight : x.fractionBits = 0 ∧ 1 < x.exponentBits
  · refine .inl ⟨tight, ?_⟩
    simp only [if_pos tight]
    rw [Nat.cast_sub (by omega)]
    norm_num
  · refine .inr ⟨tight, ?_⟩
    simp only [if_neg tight]
    rw [Nat.cast_sub (by omega)]
    norm_num

theorem high_eq (x : Double) : ((interval x).high : ℚ) = 4 * x.significand + 2 := by
  simp [interval]

theorem unit_eq (x : Double) : (2 : ℚ) ^ x.scale = 4 * 2 ^ (interval x).unit := by
  change (2 : ℚ) ^ x.scale = 4 * 2 ^ (x.scale - 2)
  rw [zpow_sub₀ (by norm_num)]
  norm_num
  ring

/-- The numbers of the interval are no further than half a unit away. The ends belong to it only if the significand is
even, and below a power of two the end is nearer. -/
theorem Interval.Contains.bounds (inside : (interval x).Contains v) (positive : 0 < x.significand) :
    ((x.significand : ℚ) - 1 / 2) * 2 ^ x.scale ≤ v ∧ v ≤ ((x.significand : ℚ) + 1 / 2) * 2 ^ x.scale ∧
      (x.significand % 2 = 0 ∨ (((x.significand : ℚ) - 1 / 2) * 2 ^ x.scale < v ∧
        v < ((x.significand : ℚ) + 1 / 2) * 2 ^ x.scale)) ∧
      (x.significand = 2 ^ 52 → -1074 < x.scale → ((x.significand : ℚ) - 1 / 4) * 2 ^ x.scale ≤ v) := by
  have unit : (0 : ℚ) < 2 ^ (interval x).unit := by positivity
  have even : (interval x).closed = true ↔ x.significand % 2 = 0 := beq_iff_eq
  unfold Contains at inside
  rw [high_eq] at inside
  simp only [unit_eq]
  -- Two questions decide what the ends are: whether the one below is nearer, and whether they belong to the interval.
  obtain ⟨tight, low⟩ | ⟨loose, low⟩ := low_eq positive
  · rw [low] at inside
    -- Only the sign of the unit matters from here on.
    generalize (2 : ℚ) ^ (interval x).unit = p at *
    split at inside
    · rename_i closed
      exact ⟨by linarith [inside.1], by linarith [inside.2], .inl (even.mp closed), fun _ _ => by linarith [inside.1]⟩
    · exact ⟨by linarith [inside.1], by linarith [inside.2], .inr ⟨by linarith [inside.1], by linarith [inside.2]⟩,
        fun _ _ => by linarith [inside.1]⟩
  · rw [low] at inside
    generalize (2 : ℚ) ^ (interval x).unit = p at *
    split at inside
    · rename_i closed
      exact ⟨by linarith [inside.1], by linarith [inside.2], .inl (even.mp closed),
        fun power normal => absurd ⟨power, normal⟩ loose⟩
    · exact ⟨by linarith [inside.1], by linarith [inside.2], .inr ⟨by linarith [inside.1], by linarith [inside.2]⟩,
        fun power normal => absurd ⟨power, normal⟩ loose⟩

theorem Interval.contains_of_lt {i : Interval} (low : (i.low : ℚ) * 2 ^ i.unit < v)
    (high : v < (i.high : ℚ) * 2 ^ i.unit) : i.Contains v := by
  unfold Contains
  split
  · exact ⟨low.le, high.le⟩
  · exact ⟨low, high⟩

theorem Interval.Contains.pos (inside : (interval x).Contains v) (positive : 0 < x.significand) : 0 < v := by
  have whole : (1 : ℚ) ≤ x.significand := by exact_mod_cast positive
  refine lt_of_lt_of_le ?_ (inside.bounds positive).1
  have : (0 : ℚ) < (x.significand : ℚ) - 1 / 2 := by linarith
  positivity

/-- The numbers of an interval are no smaller than half the smallest double, and smaller than a power of two. -/
theorem Interval.Contains.range (inside : (interval x).Contains v) (positive : 0 < x.significand)
    (finite : x.exponentBits ≤ 2046) : (2 : ℚ) ^ (-1075 : Int) ≤ v ∧ v < 2 ^ (1024 : Int) := by
  obtain ⟨low, high, -, -⟩ := inside.bounds positive
  have whole : (1 : ℚ) ≤ x.significand := by exact_mod_cast positive
  have largest : (x.significand : ℚ) + 1 ≤ 2 ^ 53 := by exact_mod_cast x.significand_lt
  have unit_low : (2 : ℚ) ^ (-1074 : Int) ≤ 2 ^ x.scale := zpow_le_zpow_right₀ (by norm_num) x.scale_least
  -- A finite double has an exponent below the one kept for infinities.
  have unit_high : (2 : ℚ) ^ x.scale ≤ 2 ^ (971 : Int) := by
    refine zpow_le_zpow_right₀ (by norm_num) ?_
    unfold Double.scale
    split <;> omega
  constructor
  · calc (2 : ℚ) ^ (-1075 : Int) = 2 ^ (-1 : Int) * 2 ^ (-1074 : Int) := (zpow_add₀ (by norm_num) (-1) (-1074))
      _ ≤ ((x.significand : ℚ) - 1 / 2) * 2 ^ x.scale := by
        refine mul_le_mul ?_ unit_low (by positivity) (by linarith)
        rw [zpow_neg_one]
        linarith
      _ ≤ v := low
  · calc v ≤ ((x.significand : ℚ) + 1 / 2) * 2 ^ x.scale := high
      _ < 2 ^ 53 * 2 ^ x.scale := by
        gcongr
        linarith
      _ ≤ 2 ^ (53 : Int) * 2 ^ (971 : Int) := mul_le_mul_of_nonneg_left unit_high (by positivity)
      _ = 2 ^ (1024 : Int) := (zpow_add₀ (by norm_num) 53 971).symm

/-- A fraction in the interval of a double rounds to it. -/
theorem Interval.Contains.roundedBits_eq (inside : (interval x).Contains r.value)
    (positive : 0 < x.significand) (num : 0 < r.num) (den : 0 < r.den) : Decimal.roundedBits r = x.magnitudeBits := by
  obtain ⟨low, high, ties, tight⟩ := inside.bounds positive
  rw [Decimal.roundedBits_eq num den x.significand_lt x.scale_least x.normal_or_lowest low high ties tight, x.bits_eq]

end Shortest

namespace Decimal

open Shortest

variable {digits : Nat}

/-- The fraction `digits * 10 ^ exponent`. -/
def ratio (digits : Nat) (exponent : Int) : Ratio :=
  if 0 ≤ exponent then ⟨digits * Nat.pow 10 exponent.toNat, 1⟩ else ⟨digits, Nat.pow 10 (-exponent).toNat⟩

/-- A fraction of digits and exponent has their value. -/
theorem value_ratio (digits : Nat) (exponent : Int) : (ratio digits exponent).value = digits * 10 ^ exponent := by
  unfold ratio Ratio.value
  split
  · rename_i upward
    simp only [Nat.cast_mul, zpow_toNat 10 upward]
    norm_num
  · rename_i downward
    simp only [zpow_toNat 10 (show 0 ≤ -exponent by omega), Nat.cast_ofNat, zpow_neg]
    field_simp

theorem ratio_num_pos (positive : 0 < digits) (exponent : Int) : 0 < (ratio digits exponent).num := by
  unfold ratio
  split
  · exact Nat.mul_pos positive (Nat.pow_pos (by decide))
  · exact positive

theorem ratio_den_pos (digits : Nat) (exponent : Int) : 0 < (ratio digits exponent).den := by
  unfold ratio
  split
  · exact Nat.one_pos
  · exact Nat.pow_pos (by decide)

/-- A number has as many digits as its size tells. -/
theorem digitCount_bounds (positive : 0 < n) : 10 ^ (digitCount n - 1) ≤ n ∧ n < 10 ^ digitCount n := by
  have some : 0 < digitCount n := Nat.length_toDigits_pos
  refine ⟨?_, (Nat.length_toDigits_le_iff (by decide) some).mp (Nat.le_refl _)⟩
  -- With fewer digits than counted the number would be smaller than it is.
  by_contra fewer
  by_cases single : digitCount n = 1
  · rw [single] at fewer
    exact fewer positive
  · have : digitCount n ≤ digitCount n - 1 :=
      (Nat.length_toDigits_le_iff (by decide) (by omega)).mpr (Nat.lt_of_not_le fewer)
    omega

/-- Four hundred decimal places are more than the doubles take up. -/
theorem powers_apart : (2 : ℚ) ^ (1075 : Int) < 10 ^ (400 : Int) := by
  -- The powers are compared in sixty-four equal portions, which are small enough to compute.
  have base : (2 : ℚ) ^ (17 : Int) < 10 ^ (6 : Int) := by norm_num
  calc (2 : ℚ) ^ (1075 : Int) ≤ 2 ^ (17 * 64 : Int) := zpow_le_zpow_right₀ (by norm_num) (by decide)
    _ = ((2 : ℚ) ^ (17 : Int)) ^ (64 : Int) := zpow_mul 2 17 64
    _ < ((10 : ℚ) ^ (6 : Int)) ^ (64 : Int) := zpow_lt_zpow_left₀ (by decide) (by positivity) base
    _ = 10 ^ (6 * 64 : Int) := (zpow_mul 10 6 64).symm
    _ ≤ 10 ^ (400 : Int) := zpow_le_zpow_right₀ (by norm_num) (by decide)

/-- Decimal digits whose number lies in the interval of a double read as that double. -/
theorem toDouble?_of_contains {x : Double} (finite : x.isFinite = true) (positive : 0 < x.significand) (negative : Bool)
    {exponent : Int} (inside : (interval x).Contains (digits * 10 ^ exponent)) :
    toDouble? negative digits exponent = some (Double.ofMagnitude negative x.magnitudeBits) := by
  -- The interval has no zero, so there is a digit.
  have nonzero : 0 < digits := by
    by_contra zero
    have value := inside.pos positive
    rw [show digits = 0 by omega] at value
    simp at value
  obtain ⟨least, most⟩ := digitCount_bounds nonzero
  have some : 0 < digitCount digits := Nat.length_toDigits_pos
  have exponent_bits : x.exponentBits < 2047 := by
    have := x.exponentBits_lt
    rw [Double.isFinite, bne_iff_ne] at finite
    omega
  obtain ⟨low, high⟩ := inside.range positive (by omega)
  have count : ((digitCount digits - 1 : Nat) : Int) = (digitCount digits : Int) - 1 := by omega
  -- No finite double comes near the bounds past which nothing is computed.
  have not_above : ¬ (400 < exponent + (digitCount digits : Int)) := by
    intro above
    -- The first digit alone would put the number past all doubles.
    have first : (10 : ℚ) ^ (400 : Int) ≤ digits * 10 ^ exponent := calc
      (10 : ℚ) ^ (400 : Int) ≤ 10 ^ ((digitCount digits : Int) - 1 + exponent) :=
        zpow_le_zpow_right₀ (by norm_num) (by omega)
      _ = ((10 ^ (digitCount digits - 1) : Nat) : ℚ) * 10 ^ exponent := by
        rw [zpow_add₀ (by norm_num), ← count, zpow_natCast]
        norm_num
      _ ≤ digits * 10 ^ exponent := by gcongr
    have past : (2 : ℚ) ^ (1024 : Int) ≤ 2 ^ (1075 : Int) := zpow_le_zpow_right₀ (by norm_num) (by decide)
    exact lt_irrefl _ (((high.trans_le past).trans powers_apart).trans_le first)
  have not_below : ¬ (exponent + (digitCount digits : Int) < -400) := by
    intro below
    -- All digits together would leave the number below the smallest double.
    have first : digits * (10 : ℚ) ^ exponent ≤ 10 ^ (-400 : Int) := calc
      digits * (10 : ℚ) ^ exponent ≤ ((10 ^ digitCount digits : Nat) : ℚ) * 10 ^ exponent := by gcongr
      _ = 10 ^ ((digitCount digits : Int) + exponent) := by
        rw [zpow_add₀ (by norm_num), zpow_natCast]
        norm_num
      _ ≤ 10 ^ (-400 : Int) := zpow_le_zpow_right₀ (by norm_num) (by omega)
    have past : (10 : ℚ) ^ (-400 : Int) < 2 ^ (-1075 : Int) := by
      rw [zpow_neg, zpow_neg, inv_lt_inv₀ (by positivity) (by positivity)]
      exact powers_apart
    exact lt_irrefl _ ((low.trans first).trans_lt past)
  have rounded : roundBits? (ratio digits exponent) = .some x.magnitudeBits := by
    have fraction := x.fractionBits_lt
    rw [← value_ratio] at inside
    rw [roundBits?_eq, inside.roundedBits_eq positive (ratio_num_pos nonzero exponent) (ratio_den_pos digits exponent)]
    refine if_pos ?_
    unfold Double.magnitudeBits
    simp only [Nat.pow_eq]
    omega
  unfold toDouble?
  rw [if_neg (by omega)]
  dsimp only
  rw [if_neg not_above, if_neg not_below]
  exact congrArg (Option.map (Double.ofMagnitude negative)) rounded

end Decimal

end EntityGraph
