import EntityGraph.Proofs.Number.Rounding

/-! The digits that are found for a double read back as that double.

Every grid point that is taken lies in the double's interval, and the grid with seventeen digits has one there: its step
is smaller than the distance to the next double above, and a power of two has twice that distance above it as below. -/

namespace EntityGraph.Shortest

variable {r : Ratio} {tie : Tie} {i : Interval} {step : Int}

theorem ofBinary_den_pos (n : Nat) (e : Int) : 0 < (Ratio.ofBinary n e).den := by
  unfold Ratio.ofBinary
  split
  · exact Nat.one_pos
  · exact Nat.pow_pos (by decide)

theorem ofBinary_num_pos {n : Nat} (positive : 0 < n) (e : Int) : 0 < (Ratio.ofBinary n e).num := by
  unfold Ratio.ofBinary
  split
  · exact Nat.mul_pos positive (Nat.pow_pos (by decide))
  · exact positive

theorem value_ofBinary (n : Nat) (e : Int) : (Ratio.ofBinary n e).value = n * 2 ^ e := by
  unfold Ratio.ofBinary Ratio.value
  split
  · rename_i upward
    simp only [Nat.cast_mul, Decimal.zpow_toNat 2 upward]
    norm_num
  · rename_i downward
    simp only [Decimal.zpow_toNat 2 (show 0 ≤ -e by omega), Nat.cast_ofNat, zpow_neg]
    field_simp

theorem downscale_den_pos (positive : 0 < r.den) (e : Int) : 0 < (r.downscale e).den := by
  unfold Ratio.downscale
  split
  · exact Nat.mul_pos positive (Nat.pow_pos (by decide))
  · exact positive

/-- A fraction is divided by a power of ten. -/
theorem value_downscale (r : Ratio) (e : Int) : (r.downscale e).value = r.value / 10 ^ e := by
  unfold Ratio.downscale Ratio.value
  split
  · rename_i upward
    simp only [Nat.cast_mul, Decimal.zpow_toNat 10 upward, Nat.cast_ofNat, div_div]
  · rename_i downward
    simp only [Nat.cast_mul, Decimal.zpow_toNat 10 (show 0 ≤ -e by omega), Nat.cast_ofNat, zpow_neg]
    field_simp

/-- The end of an interval in steps of a grid. -/
def gridEnd (n : Nat) (unit step : Int) : Ratio :=
  (Ratio.ofBinary n unit).downscale step

theorem gridEnd_den_pos (n : Nat) (unit step : Int) : 0 < (gridEnd n unit step).den :=
  downscale_den_pos (ofBinary_den_pos n unit) step

theorem lt_next_point (n : Nat) (unit step : Int) : (gridEnd n unit step).num <
    ((gridEnd n unit step).num / (gridEnd n unit step).den + 1) * (gridEnd n unit step).den := by
  rw [Nat.mul_comm]
  exact Nat.lt_mul_div_succ _ (gridEnd_den_pos n unit step)

/-- An end of an interval, in steps of the grid. -/
theorem value_gridEnd (n : Nat) (unit step : Int) : (gridEnd n unit step).value * 10 ^ step = n * 2 ^ unit := by
  rw [gridEnd, value_downscale, value_ofBinary, div_mul_cancel₀ _ (by positivity)]

/-- Comparing a grid point with an end needs no fractions. -/
theorem gridEnd_le_iff (n : Nat) (unit step : Int) (point : Nat) :
    (gridEnd n unit step).num ≤ point * (gridEnd n unit step).den ↔ (n : ℚ) * 2 ^ unit ≤ point * 10 ^ step := by
  have den : (0 : ℚ) < (gridEnd n unit step).den := by exact_mod_cast gridEnd_den_pos n unit step
  have grid : (0 : ℚ) < 10 ^ step := by positivity
  rw [← value_gridEnd, mul_le_mul_iff_left₀ grid, Ratio.value, div_le_iff₀ den]
  exact_mod_cast Iff.rfl

theorem le_gridEnd_iff (n : Nat) (unit step : Int) (point : Nat) :
    point * (gridEnd n unit step).den ≤ (gridEnd n unit step).num ↔ (point : ℚ) * 10 ^ step ≤ n * 2 ^ unit := by
  have den : (0 : ℚ) < (gridEnd n unit step).den := by exact_mod_cast gridEnd_den_pos n unit step
  have grid : (0 : ℚ) < 10 ^ step := by positivity
  rw [← value_gridEnd, mul_le_mul_iff_left₀ grid, Ratio.value, le_div_iff₀ den]
  exact_mod_cast Iff.rfl

/-- The check of a grid point decides whether it lies in the interval. -/
theorem holds_iff (i : Interval) (step : Int) (point : Nat) :
    holds i step point = true ↔ i.Contains (point * 10 ^ step) := by
  have low := gridEnd_le_iff i.low i.unit step point
  have high := le_gridEnd_iff i.high i.unit step point
  have above := le_gridEnd_iff i.low i.unit step point
  have below := gridEnd_le_iff i.high i.unit step point
  unfold gridEnd at low high above below
  unfold holds Interval.Contains
  dsimp only
  -- A closed interval is checked with both ends, an open one by what lies past them.
  split
  · rw [Bool.and_eq_true, decide_eq_true_eq, decide_eq_true_eq, low, high]
  · rw [Bool.and_eq_true, decide_eq_true_eq, decide_eq_true_eq, ← not_le, ← not_le, above, below, not_le, not_le]

theorem nearer_eq (tie : Tie) (middle : Ratio) (below : Nat) :
    nearer tie middle below = below ∨ nearer tie middle below = below + 1 := by
  unfold nearer
  dsimp only
  split
  · exact .inl rfl
  · split
    · exact .inr rfl
    · cases tie with
      | toEven => by_cases even : below % 2 = 0 <;> simp [Tie.pick, even]
      | up => exact .inr rfl

/-- A grid point that is taken lies in the interval. -/
theorem contains_of_onGrid? {point : Nat}
    (found : onGrid? tie i step = some point) : i.Contains (point * 10 ^ step) := by
  rw [← holds_iff]
  unfold onGrid? at found
  dsimp only at found
  -- Both points may fit, then the nearer one is taken; otherwise the one that fits.
  split at found
  · rename_i both next
    cases found
    obtain same | same := nearer_eq tie ((Ratio.ofBinary i.middle i.unit).downscale step)
        (((Ratio.ofBinary i.middle i.unit).downscale step).num / ((Ratio.ofBinary i.middle i.unit).downscale step).den)
    · rw [same]
      exact both
    · rw [same]
      exact next
  · rename_i lower _
    cases found
    exact lower
  · rename_i _ upper
    cases found
    exact upper
  · cases found

/-- Digits with their exponent as a number. -/
def Digits.value (d : Digits) : ℚ :=
  d.digits * 10 ^ d.exponent

/-- Dropping zeros at the end changes the exponent instead. -/
theorem value_trim (n : Nat) (d : Digits) : (trim n d).value = d.value := by
  induction n generalizing d with
  | zero => rfl
  | succ n ih =>
    unfold trim
    split
    · rename_i last
      rw [ih, Digits.value, Digits.value]
      -- The last digit is a zero, so nothing is lost by the division.
      have parts : (d.digits : ℚ) = 10 * (d.digits / 10 : Nat) := by
        exact_mod_cast (by omega : d.digits = 10 * (d.digits / 10))
      rw [parts, zpow_add_one₀ (by norm_num)]
      ring
    · rfl

/-- A search that reaches a grid with a point ends at a number of the interval. -/
theorem contains_search {first : Int} {rest count reached : Nat} (start : count ≤ reached)
    (stop : reached < count + rest) (found : ∃ point, onGrid? tie i (first - reached + 1) = some point) :
    i.Contains (search tie i first rest count).value := by
  induction rest generalizing count with
  | zero => omega
  | succ rest ih =>
    unfold search
    dsimp only
    split
    · rename_i point here
      -- The first grid with a point ends the search.
      rw [value_trim]
      exact contains_of_onGrid? here
    · rename_i nothing
      -- The grid with a point is still to come.
      refine ih ?_ (by omega)
      by_contra past
      rw [show reached = count by omega, nothing] at found
      obtain ⟨point, found⟩ := found
      cases found

/-- The exponent of the first digit is no larger than the fraction allows. -/
theorem leading_le (num : 0 < r.num) (den : 0 < r.den) : (10 : ℚ) ^ leading r ≤ r.value := by
  have num_pos : (0 : ℚ) < r.num := by exact_mod_cast num
  have den_pos : (0 : ℚ) < r.den := by exact_mod_cast den
  unfold leading Ratio.value
  rw [le_div_iff₀ den_pos]
  split
  · -- At least one: the whole part has as many digits.
    rename_i whole
    have quotient : 0 < r.num / r.den := Nat.div_pos whole den
    have some : 0 < digitCount (r.num / r.den) := Nat.length_toDigits_pos
    have least := (Decimal.digitCount_bounds quotient).1
    have reach : 10 ^ (digitCount (r.num / r.den) - 1) * r.den ≤ r.num :=
      (Nat.mul_le_mul_right _ least).trans (Nat.div_mul_le_self _ _)
    rw [show (digitCount (r.num / r.den) : Int) - 1 = ((digitCount (r.num / r.den) - 1 : Nat) : Int) by omega,
      zpow_natCast]
    exact_mod_cast reach
  · -- Less than one: the inverse has as many digits as there are places, or one fewer.
    rename_i fraction
    have quotient : 0 < r.den / r.num := Nat.div_pos (by omega) num
    have most := (Decimal.digitCount_bounds quotient).2
    have some : 0 < digitCount (r.den / r.num) := Nat.length_toDigits_pos
    obtain ⟨places, count⟩ : ∃ places, digitCount (r.den / r.num) = places + 1 := ⟨_, (Nat.sub_add_cancel some).symm⟩
    dsimp only
    rw [count] at most ⊢
    simp only [Nat.add_sub_cancel]
    split
    · rename_i enough
      -- The guess is right.
      rw [zpow_neg, zpow_natCast, inv_mul_le_iff₀ (by positivity), mul_comm]
      exact_mod_cast enough
    · -- The guess is one place too high, and one lower is always enough.
      have reach : r.den ≤ r.num * 10 ^ (places + 1) := by
        have parts := Nat.lt_mul_div_succ r.den num
        exact parts.le.trans (Nat.mul_le_mul_left _ most)
      rw [show -(places : Int) - 1 = -((places + 1 : Nat) : Int) by omega, zpow_neg, zpow_natCast,
        inv_mul_le_iff₀ (by positivity), mul_comm]
      exact_mod_cast reach

variable {x : Double}

/-- Between two points of a grid whose step is small enough, one is in the interval of the double that they enclose. -/
theorem contains_of_enclosed (positive : 0 < x.significand) {below : Nat}
    (grid : (10 : ℚ) ^ step * 10 ^ 16 ≤ 4 * x.significand * 2 ^ (interval x).unit)
    (point_le : (below : ℚ) * 10 ^ step ≤ 4 * x.significand * 2 ^ (interval x).unit)
    (lt_next : 4 * (x.significand : ℚ) * 2 ^ (interval x).unit < (below + 1 : Nat) * 10 ^ step) :
    (interval x).Contains (below * 10 ^ step) ∨ (interval x).Contains ((below + 1 : Nat) * 10 ^ step) := by
  have unit : (0 : ℚ) < 2 ^ (interval x).unit := by positivity
  -- Sixteen digits are worth less than fifty-three bits, so a step is small against the interval.
  have most : (x.significand : ℚ) * 2 ^ (interval x).unit ≤ 2 ^ 53 * 2 ^ (interval x).unit := by
    gcongr
    exact_mod_cast x.significand_lt.le
  by_cases near : ((below + 1 : Nat) : ℚ) * 10 ^ step < (interval x).high * 2 ^ (interval x).unit
  · -- The point above is before the upper end, and above the double itself.
    refine .inr (Interval.contains_of_lt ?_ near)
    obtain ⟨-, low⟩ | ⟨-, low⟩ := low_eq positive
    all_goals
      rw [low]
      linarith
  · -- The point above is past the end, so the step is more than half the distance to the next double.
    rw [high_eq] at near
    push_cast at near
    refine .inl (Interval.contains_of_lt ?_ ?_)
    · obtain ⟨⟨power, -⟩, -⟩ | ⟨-, low⟩ := low_eq positive
      · -- At a power of two the step is too small for that.
        rw [power] at grid point_le near
        norm_num at grid point_le near
        linarith
      · rw [low]
        norm_num at most
        linarith
    · rw [high_eq]
      linarith

/-- The grid with seventeen digits has a point in the interval of any double. -/
theorem exists_onGrid?_seventeen (positive : 0 < x.significand) (tie : Tie) :
    ∃ point, onGrid? tie (interval x)
      (leading (Ratio.ofBinary (interval x).middle (interval x).unit) - (17 : Nat) + 1) = some point := by
  generalize step_eq : leading (Ratio.ofBinary (interval x).middle (interval x).unit) - (17 : Nat) + 1 = step
  have middle : ((interval x).middle : ℚ) = 4 * x.significand := by simp [interval]
  -- A step of the grid is at most the double divided by ten to the sixteenth.
  have grid : (10 : ℚ) ^ step * 10 ^ 16 ≤ 4 * x.significand * 2 ^ (interval x).unit := by
    have some : 0 < (interval x).middle := Nat.mul_pos (by decide) positive
    have first := leading_le (ofBinary_num_pos some (interval x).unit) (ofBinary_den_pos _ _)
    rw [value_ofBinary, middle] at first
    refine le_trans (le_of_eq ?_) first
    rw [← zpow_natCast, ← zpow_add₀ (by norm_num), ← step_eq]
    congr 1
    omega
  -- The two points next to the double enclose it.
  have point_le := (le_gridEnd_iff (interval x).middle (interval x).unit step _).mp (Nat.div_mul_le_self _ _)
  have lt_next := mt (le_gridEnd_iff (interval x).middle (interval x).unit step _).mpr
    (Nat.not_le_of_lt (lt_next_point _ _ _))
  rw [not_le] at lt_next
  rw [middle] at point_le lt_next
  have inside := contains_of_enclosed positive grid point_le lt_next
  rw [← holds_iff, ← holds_iff] at inside
  unfold onGrid?
  dsimp only
  split
  · exact ⟨_, rfl⟩
  · exact ⟨_, rfl⟩
  · exact ⟨_, rfl⟩
  · -- One of the two is in the interval, so the search does not end without either.
    rename_i neither next
    unfold gridEnd at inside
    rw [neither, next] at inside
    simp at inside

/-- The digits that are found lie in the interval. -/
theorem contains_digits (positive : 0 < x.significand) (tie : Tie) : (interval x).Contains (digits tie x).value := by
  unfold digits
  rw [if_neg (by omega)]
  -- The search goes up to seventeen digits, and there it succeeds at the latest.
  exact contains_search (by decide) (by decide) (exists_onGrid?_seventeen positive tie)

end EntityGraph.Shortest
