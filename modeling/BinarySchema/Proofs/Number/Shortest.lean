import BinarySchema.Number.Shortest
import BinarySchema.Proofs.Number.Nearest

/-!
# Shortest decimals

The digits that are written for a number lie in the interval of what is rounded to the number.
Every grid point that is tried and found inside does, and on the last grid, where the number has
seventeen digits, the nearer one of the two grid points around the number is always inside.
-/

namespace BinarySchema

namespace RoundingInterval

variable {interval : RoundingInterval} {tie : Tie} {power : Int} {digits : Nat}

/-- The rationals of the interval. -/
def Covers (interval : RoundingInterval) (number : ℚ) : Prop :=
  Within (interval.closed = true) (interval.lower / interval.denominator)
    (interval.upper / interval.denominator) number

/-! ## Grid points -/

theorem onGrid_pos (hpos : 0 < interval.denominator) (numerator : Nat) (power : Int) :
    0 < (interval.onGrid numerator power).2 :=
  scaledBy_pos (by decide) numerator hpos power

theorem onGrid_ratio (interval : RoundingInterval) (numerator : Nat) (power : Int) :
    ((interval.onGrid numerator power).1 : ℚ) / (interval.onGrid numerator power).2 =
      numerator / interval.denominator / 10 ^ power :=
  scaledBy_ratio 10 numerator interval.denominator power

theorem contains_iff (hpos : 0 < interval.denominator) {point : Nat} :
    interval.contains point power = true ↔ interval.Covers (point * 10 ^ power) := by
  have hgrid : (0 : ℚ) < 10 ^ power := by positivity
  have hlower := interval.onGrid_ratio interval.lower power
  have hupper := interval.onGrid_ratio interval.upper power
  have hden : (interval.onGrid interval.upper power).2 =
      (interval.onGrid interval.lower power).2 := by
    unfold onGrid
    split <;> rfl
  have hunit : (0 : ℚ) < (interval.onGrid interval.lower power).2 := by
    exact_mod_cast onGrid_pos hpos interval.lower power
  rw [hden] at hupper
  unfold contains Covers
  dsimp only
  -- in units of the grid, with the denominator taken away
  rw [← within_mul_iff (inv_pos.mpr hgrid), ← div_eq_mul_inv, ← div_eq_mul_inv, ← hlower, ← hupper,
    mul_inv_cancel_right₀ hgrid.ne', ← within_mul_iff hunit, div_mul_cancel₀ _ hunit.ne',
    div_mul_cancel₀ _ hunit.ne']
  unfold Within
  norm_cast
  split
  · rename_i hclosed
    simp [hclosed]
  · rename_i hopen
    simp only [Bool.and_eq_true, decide_eq_true_eq, hopen]
    exact ⟨fun h => ⟨h.1.le, h.2.le, fun _ => h⟩, fun h => h.2.2 Bool.false_ne_true⟩

/-- The last grid point that is not above the value. -/
def floor (interval : RoundingInterval) (power : Int) : Nat :=
  (interval.onGrid interval.value power).1 / (interval.onGrid interval.value power).2

/-- The first grid point that is not below the value. -/
def ceiling (interval : RoundingInterval) (power : Int) : Nat :=
  if (interval.onGrid interval.value power).1 % (interval.onGrid interval.value power).2 = 0
  then interval.floor power else interval.floor power + 1

/-- A grid has a point for the number when one of those around its value is in the interval. -/
theorem point?_cases (interval : RoundingInterval) (tie : Tie) (power : Int) :
    (∃ digits, interval.point? tie power = some digits ∧ interval.contains digits power = true) ∨
      interval.point? tie power = none ∧ interval.contains (interval.floor power) power = false ∧
        interval.contains (interval.ceiling power) power = false := by
  unfold point?
  dsimp only
  rw [← floor, ← ceiling]
  cases hfloor : interval.contains (interval.floor power) power with
  | false =>
      cases hceiling : interval.contains (interval.ceiling power) power with
      | false => exact .inr ⟨rfl, rfl, rfl⟩
      | true => exact .inl ⟨_, rfl, hceiling⟩
  | true =>
      cases hceiling : interval.contains (interval.ceiling power) power with
      | false => exact .inl ⟨_, rfl, hfloor⟩
      | true =>
          refine .inl ?_
          cases tie <;> split_ifs <;> exact ⟨_, rfl, by assumption⟩

/-! ## The interval around a number -/

section

open BinaryFormat

variable {format : BinaryFormat} {significand steps : Nat} {exponent : Int} {number : ℚ}

theorem ofFinite_pos (format : BinaryFormat) (significand : Nat) (exponent : Int) :
    0 < (ofFinite format significand exponent).denominator :=
  scaledDown_pos 1 Nat.one_pos (2 - exponent)

private theorem unit_ratio (exponent : Int) :
    ((scaledDown 1 1 (2 - exponent)).1 : ℚ) / (scaledDown 1 1 (2 - exponent)).2 =
      2 ^ exponent / 4 := by
  rw [scaledDown_ratio, zpow_sub₀ (by norm_num)]
  norm_num

theorem ofFinite_value (format : BinaryFormat) (significand : Nat) (exponent : Int) :
    ((ofFinite format significand exponent).value : ℚ) /
      (ofFinite format significand exponent).denominator = significand * 2 ^ exponent := by
  have hunit := unit_ratio exponent
  unfold ofFinite
  dsimp only
  rw [Nat.cast_mul, mul_div_assoc, hunit]
  push_cast
  ring

/-- The interval of a number is what is rounded to it, in units of the last place. -/
theorem covers_ofFinite_iff (hpos : 0 < significand) :
    (ofFinite format significand (format.leastExponent + steps)).Covers
        (number * 2 ^ (format.leastExponent + (steps : Int))) ↔
      Within (significand % 2 = 0) (significand - format.placeBelow steps significand / 2)
        (significand + 1 / 2) number := by
  have hunit := unit_ratio (format.leastExponent + steps)
  have hsteps : format.leastExponent < format.leastExponent + (steps : Int) ↔ 0 < steps := by omega
  have hlower : ((ofFinite format significand (format.leastExponent + steps)).lower : ℚ) /
      (ofFinite format significand (format.leastExponent + steps)).denominator =
        (significand - format.placeBelow steps significand / 2) *
          2 ^ (format.leastExponent + (steps : Int)) := by
    simp only [ofFinite, placeBelow, Nat.cast_mul, mul_div_assoc, hunit, hsteps]
    split <;> rw [Nat.cast_sub (by omega)] <;> push_cast <;> ring
  have hupper : ((ofFinite format significand (format.leastExponent + steps)).upper : ℚ) /
      (ofFinite format significand (format.leastExponent + steps)).denominator =
        (significand + 1 / 2) * 2 ^ (format.leastExponent + (steps : Int)) := by
    simp only [ofFinite, Nat.cast_mul, mul_div_assoc, hunit]
    push_cast
    ring
  rw [Covers, hlower, hupper, within_mul_iff (by positivity)]
  simp [ofFinite]

/-- What differs from a number of 64 bits by less than a 54-bit fraction of it is rounded to it. -/
theorem covers_of_near (hpos : 0 < significand) (hlt : significand < 2 * double.hiddenBit)
    (hnear : |number - significand| * 2 ^ 54 < significand) :
    (ofFinite .double significand (double.leastExponent + steps)).Covers
      (number * 2 ^ (double.leastExponent + (steps : Int))) := by
  rw [covers_ofFinite_iff hpos]
  have hbit : double.hiddenBit = 2 ^ 52 := rfl
  have hdigits : (significand : ℚ) < 2 ^ 53 := by
    rw [hbit] at hlt
    exact_mod_cast hlt
  obtain ⟨hlow, hhigh⟩ := abs_lt.mp ((lt_div_iff₀ (by norm_num)).mpr hnear)
  refine .of_lt ?_ (by linarith)
  unfold placeBelow
  split
  · rename_i hpower
    have hsignificand : (significand : ℚ) = 2 ^ 52 := by exact_mod_cast hpower.1
    rw [hsignificand] at hlow ⊢
    linarith
  · linarith

/-- Half a step of a grid is less than a 54-bit fraction of a value of seventeen digits. -/
private theorem near_of_fine {point value grid unit : ℚ} (hgrid : 0 < grid) (hunit : 0 < unit)
    (hfine : grid * 10 ^ 16 ≤ value * unit) (hnear : |point - value * unit / grid| ≤ 1 / 2) :
    |point * grid / unit - value| * 2 ^ 54 < value := by
  have hscaled : point * grid / unit - value = (point - value * unit / grid) * (grid / unit) := by
    field_simp
  rw [hscaled, abs_mul, abs_of_pos (div_pos hgrid hunit)]
  calc |point - value * unit / grid| * (grid / unit) * 2 ^ 54
      ≤ 1 / 2 * (grid / unit) * 2 ^ 54 := by gcongr
    _ = grid * 2 ^ 53 / unit := by ring
    _ < grid * 10 ^ 16 / unit := by gcongr; norm_num
    _ ≤ value := by rwa [div_le_iff₀ hunit]

private theorem floor_or_ceiling_near (hpos : 0 < interval.denominator) (power : Int) :
    |(interval.floor power : ℚ) - interval.value / interval.denominator / 10 ^ power| ≤ 1 / 2 ∨
      |(interval.ceiling power : ℚ) - interval.value / interval.denominator / 10 ^ power| ≤
        1 / 2 := by
  have hden := onGrid_pos hpos interval.value power
  rw [← onGrid_ratio, ceiling, floor]
  generalize interval.onGrid interval.value power = fraction at *
  obtain ⟨num, den⟩ := fraction
  have hden' : (0 : ℚ) < den := by exact_mod_cast hden
  have hsplit : (num : ℚ) = den * (num / den : Nat) + (num % den : Nat) := by
    exact_mod_cast (Nat.div_add_mod num den).symm
  have hmod : ((num % den : Nat) : ℚ) < den := by exact_mod_cast Nat.mod_lt num hden
  have hratio : (num : ℚ) / den = (num / den : Nat) + (num % den : Nat) / den := by
    rw [hsplit, add_div, mul_div_cancel_left₀ _ hden'.ne']
  dsimp only
  rw [hratio]
  rcases le_total (2 * ((num % den : Nat) : ℚ)) den with hlow | hhigh
  · left
    rw [sub_add_cancel_left, abs_neg, abs_of_nonneg (by positivity), div_le_iff₀ hden']
    linarith
  · right
    have hne : num % den ≠ 0 := by
      intro hzero
      rw [hzero, Nat.cast_zero] at hhigh
      linarith
    rw [if_neg hne, Nat.cast_succ, add_sub_add_left_eq_sub, one_sub_div hden'.ne',
      abs_of_nonneg (div_nonneg (by linarith) hden'.le), div_le_iff₀ hden']
    linarith

/-- On a grid of seventeen digits the nearer one of the two points around the value is inside. -/
theorem exists_point? (tie : Tie) (hpos : 0 < significand)
    (hlt : significand < 2 * double.hiddenBit)
    (hfine : (10 : ℚ) ^ power * 10 ^ 16 ≤
      significand * 2 ^ (double.leastExponent + (steps : Int))) :
    ∃ digits, (ofFinite .double significand (double.leastExponent + steps)).point? tie power =
      some digits := by
  have hinterval := ofFinite_pos .double significand (double.leastExponent + steps)
  have hvalue := ofFinite_value .double significand (double.leastExponent + steps)
  have hunit : (0 : ℚ) < 2 ^ (double.leastExponent + (steps : Int)) := by positivity
  have hinside : ∀ point : Nat,
      |(point : ℚ) - significand * 2 ^ (double.leastExponent + (steps : Int)) / 10 ^ power| ≤ 1 / 2 →
      (ofFinite .double significand (double.leastExponent + steps)).contains point power = true := by
    intro point hnear
    rw [contains_iff hinterval, ← div_mul_cancel₀ ((point : ℚ) * 10 ^ power) hunit.ne']
    exact covers_of_near hpos hlt (near_of_fine (by positivity) hunit hfine hnear)
  rcases point?_cases _ tie power with ⟨digits, hdigits, -⟩ | ⟨-, hfloor, hceiling⟩
  · exact ⟨digits, hdigits⟩
  · rw [← hvalue] at hinside
    rcases floor_or_ceiling_near hinterval power with hnear | hnear
    · exact absurd (hinside _ hnear) (Bool.eq_false_iff.mp hfloor)
    · exact absurd (hinside _ hnear) (Bool.eq_false_iff.mp hceiling)

end

/-! ## The search -/

theorem pow_length_le {value : Nat} (hpos : 0 < value) :
    10 ^ ((Text.decimal value).length - 1) ≤ value := by
  rcases Nat.eq_zero_or_pos ((Text.decimal value).length - 1) with hzero | hplaces
  · rw [hzero]
    exact hpos
  · by_contra hlt
    have := (Nat.length_toDigits_le_iff (by decide) hplaces).mpr (Nat.lt_of_not_le hlt)
    rw [Text.decimal] at this hplaces
    omega

theorem lt_pow_length (value : Nat) : value < 10 ^ (Text.decimal value).length :=
  (Nat.length_toDigits_le_iff (by decide) Nat.length_toDigits_pos).mp le_rfl

/-- The search starts at the leading digit, or left of it. -/
theorem pow_order_le (hvalue : 0 < interval.value) (hpos : 0 < interval.denominator) :
    (10 : ℚ) ^ interval.order ≤ interval.value / interval.denominator := by
  have hvalue' : (0 : ℚ) < interval.value := by exact_mod_cast hvalue
  have hden : (0 : ℚ) < interval.denominator := by exact_mod_cast hpos
  unfold order
  dsimp only
  split
  · rename_i hle
    have hlength : 0 < (Text.decimal (interval.value / interval.denominator)).length :=
      Nat.length_toDigits_pos
    rw [← Nat.cast_one, ← Nat.cast_sub hlength, zpow_natCast, le_div_iff₀ hden]
    exact_mod_cast (Nat.le_div_iff_mul_le hpos).mp (pow_length_le (Nat.div_pos hle hpos))
  · have hlength : 0 < (Text.decimal (interval.denominator / interval.value)).length :=
      Nat.length_toDigits_pos
    split
    · rename_i hexact
      have hplaces : (interval.denominator : ℚ) = interval.value *
          10 ^ ((Text.decimal (interval.denominator / interval.value)).length - 1) := by
        exact_mod_cast hexact
      rw [← Nat.cast_one, ← neg_sub, ← Nat.cast_sub hlength, zpow_neg, zpow_natCast,
        le_div_iff₀ hden, hplaces, mul_left_comm]
      field_simp
      exact le_rfl
    · have hlt := lt_pow_length (interval.denominator / interval.value)
      rw [Nat.div_lt_iff_lt_mul hvalue] at hlt
      rw [zpow_neg, zpow_natCast, inv_eq_one_div, div_le_div_iff₀ (by positivity) hden, one_mul,
        mul_comm]
      exact_mod_cast hlt.le

end RoundingInterval

namespace Decimal

variable {tie : Tie} {interval : RoundingInterval} {power : Int}

def number (decimal : Decimal) : ℚ :=
  decimal.digits * 10 ^ decimal.power

/-- A search finds a point of the interval when the last grid that it tries has one. -/
theorem covers_search (hpos : 0 < interval.denominator) (count : Nat)
    (h : ∃ digits, interval.point? tie (power - count) = some digits) :
    interval.Covers (interval.search tie (count + 1) power).number := by
  have hfound : ∀ {power digits}, interval.point? tie power = some digits →
      interval.Covers (number ⟨digits, power⟩) := by
    intro power digits hdigits
    rcases interval.point?_cases tie power with ⟨other, hother, hcontains⟩ | ⟨hnone, -⟩
    · cases hdigits.symm.trans hother
      exact (RoundingInterval.contains_iff hpos).mp hcontains
    · simp [hdigits] at hnone
  induction count generalizing power with
  | zero =>
      obtain ⟨digits, hdigits⟩ := h
      rw [Nat.cast_zero, sub_zero] at hdigits
      rw [RoundingInterval.search, hdigits]
      exact hfound hdigits
  | succ count ih =>
      rw [RoundingInterval.search]
      cases hpoint : interval.point? tie power with
      | some digits => exact hfound hpoint
      | none =>
          refine ih ?_
          rwa [sub_sub, add_comm 1, ← Nat.cast_succ]

theorem number_dropZeros (count : Nat) (decimal : Decimal) :
    (dropZeros count decimal).number = decimal.number := by
  induction count generalizing decimal with
  | zero => rfl
  | succ count ih =>
      unfold dropZeros
      split
      · rename_i hzero
        have hdigits : (decimal.digits : ℚ) = (decimal.digits / 10 : Nat) * 10 := by
          exact_mod_cast (Nat.div_mul_cancel (Nat.dvd_of_mod_eq_zero hzero.2)).symm
        rw [ih, number, number, hdigits, zpow_add_one₀ (by norm_num)]
        ring
      · rfl

open BinaryFormat

variable {num den significand steps : Nat}

/-- The digits that are written for a number lie in the interval of the number. -/
theorem covers_shortest (tie : Tie) (steps : Nat) (hpos : 0 < significand)
    (hlt : significand < 2 * double.hiddenBit) :
    (RoundingInterval.ofFinite .double significand (double.leastExponent + steps)).Covers
      (shortest tie significand (double.leastExponent + steps)).number := by
  have hinterval :=
    RoundingInterval.ofFinite_pos .double significand (double.leastExponent + steps)
  have hvalue :=
    RoundingInterval.ofFinite_value .double significand (double.leastExponent + steps)
  have hvaluePos :
      0 < (RoundingInterval.ofFinite .double significand (double.leastExponent + steps)).value := by
    refine Nat.pos_of_ne_zero fun hzero => ?_
    rw [hzero, Nat.cast_zero, zero_div] at hvalue
    have : (0 : ℚ) < significand * 2 ^ (double.leastExponent + (steps : Int)) := by positivity
    exact this.ne hvalue
  have horder := RoundingInterval.pow_order_le hvaluePos hinterval
  rw [hvalue] at horder
  unfold shortest
  dsimp only
  rw [number_dropZeros]
  refine covers_search hinterval 16 (RoundingInterval.exists_point? tie hpos hlt ?_)
  refine le_trans (le_of_eq ?_) horder
  rw [Nat.cast_ofNat, zpow_sub₀ (by norm_num)]
  norm_num

/-- The digits that are written for a number are rounded to the number. -/
theorem nearest_shortest (tie : Tie) (hpos : 0 < significand)
    (hholds : double.Holds steps significand) (hden : 0 < den)
    (hratio : (num : ℚ) / den =
      (shortest tie significand (double.leastExponent + steps)).number) :
    double.nearest num den =
      min double.infinity (steps * double.hiddenBit + significand) := by
  have hunit : (0 : ℚ) < 2 ^ (double.leastExponent + (steps : Int)) := by positivity
  have hcovers := covers_shortest tie steps hpos hholds.lt
  rw [← hratio, ← div_mul_cancel₀ ((num : ℚ) / den) hunit.ne',
    RoundingInterval.covers_ofFinite_iff hpos] at hcovers
  exact nearest_eq hden hholds hcovers

theorem digits_shortest_pos (tie : Tie) (hpos : 0 < significand)
    (hholds : double.Holds steps significand) :
    0 < (shortest tie significand (double.leastExponent + steps)).digits := by
  have hbelow := double.placeBelow_le_one steps significand
  have hone : (1 : ℚ) ≤ significand := by exact_mod_cast hpos
  refine Nat.pos_of_ne_zero fun hzero => ?_
  have hcovers := covers_shortest tie steps hpos hholds.lt
  rw [number, hzero, Nat.cast_zero, zero_mul,
    ← zero_mul ((2 : ℚ) ^ (double.leastExponent + (steps : Int))),
    RoundingInterval.covers_ofFinite_iff hpos] at hcovers
  linarith [hcovers.1]

end Decimal

end BinarySchema
