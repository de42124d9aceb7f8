import Mathlib.Algebra.Order.Archimedean.Basic
import Mathlib.Algebra.Order.Field.Basic
import Mathlib.Algebra.Order.Field.Power
import Mathlib.Data.Rat.Cast.Order
import Mathlib.Tactic.FieldSimp
import Mathlib.Tactic.Linarith
import Mathlib.Tactic.NormNum
import Mathlib.Tactic.Ring
import BinarySchema.Number.Binary

/-!
# Rounding to the nearest number

Around each number that a binary format represents lies the interval of the rationals that are
rounded to it.  It reaches half way to the neighbours, and the ends belong to the numbers of even
significand.
-/

namespace BinarySchema

/-- A number between two others, which count as between when `closed`. -/
def Within (closed : Prop) (low high number : ℚ) : Prop :=
  low ≤ number ∧ number ≤ high ∧ (¬closed → low < number ∧ number < high)

theorem Within.of_lt {closed : Prop} {low high number : ℚ} (hlow : low < number)
    (hhigh : number < high) : Within closed low high number :=
  ⟨hlow.le, hhigh.le, fun _ => ⟨hlow, hhigh⟩⟩

theorem within_mul_iff {closed : Prop} {low high number unit : ℚ} (hunit : 0 < unit) :
    Within closed (low * unit) (high * unit) (number * unit) ↔ Within closed low high number := by
  simp only [Within, mul_le_mul_iff_left₀ hunit, mul_lt_mul_iff_left₀ hunit]

/-! ## Fractions -/

/-- The fraction `num / den / base ^ exponent`. -/
def scaledBy (base num den : Nat) (exponent : Int) : Nat × Nat :=
  if 0 ≤ exponent then (num, den * Nat.pow base exponent.toNat)
  else (num * Nat.pow base (-exponent).toNat, den)

theorem scaledBy_pos {base den : Nat} (hbase : 0 < base) (num : Nat) (hden : 0 < den)
    (exponent : Int) : 0 < (scaledBy base num den exponent).2 := by
  unfold scaledBy
  split
  · exact Nat.mul_pos hden (Nat.pow_pos hbase)
  · exact hden

theorem scaledBy_ratio (base num den : Nat) (exponent : Int) :
    ((scaledBy base num den exponent).1 : ℚ) / (scaledBy base num den exponent).2 =
      num / den / base ^ exponent := by
  unfold scaledBy
  split
  · rename_i hle
    obtain ⟨power, rfl⟩ := Int.eq_ofNat_of_zero_le hle
    simp only [Int.toNat_natCast, Nat.pow_eq, Nat.cast_mul, Nat.cast_pow, zpow_natCast, div_div]
  · rename_i hneg
    obtain ⟨power, hpower⟩ := Int.eq_ofNat_of_zero_le (by omega : 0 ≤ -exponent)
    have hexponent : exponent = -(power : Int) := by omega
    subst hexponent
    simp only [neg_neg, Int.toNat_natCast, Nat.pow_eq, Nat.cast_mul, Nat.cast_pow, zpow_neg,
      zpow_natCast, div_inv_eq_mul]
    ring

theorem scaledDown_pos (num : Nat) {den : Nat} (hden : 0 < den) (exponent : Int) :
    0 < (scaledDown num den exponent).2 :=
  scaledBy_pos (by decide) num hden exponent

theorem scaledDown_ratio (num den : Nat) (exponent : Int) :
    ((scaledDown num den exponent).1 : ℚ) / (scaledDown num den exponent).2 =
      num / den / 2 ^ exponent :=
  scaledBy_ratio 2 num den exponent

/-- A fraction reaches a power of two when it reaches one after it is scaled down by the power. -/
private theorem scaledDown_le_iff (num : Nat) {den : Nat} (hden : 0 < den) (exponent : Int) :
    (scaledDown num den exponent).2 ≤ (scaledDown num den exponent).1 ↔
      (2 : ℚ) ^ exponent ≤ num / den := by
  have hpos : (0 : ℚ) < (scaledDown num den exponent).2 := by
    exact_mod_cast scaledDown_pos num hden exponent
  have hpower : (0 : ℚ) < 2 ^ exponent := by positivity
  rw [← Nat.cast_le (α := ℚ), ← one_le_div hpos, scaledDown_ratio, one_le_div hpower]

/-- A fraction lies within a power of two of the guess from the lengths of its parts. -/
private theorem ratio_bracket {num den : Nat} (hnum : 0 < num) (hden : 0 < den) :
    (2 : ℚ) ^ ((num.log2 : Int) - (den.log2 + 1)) ≤ num / den ∧
      (num : ℚ) / den < 2 ^ ((num.log2 : Int) + 1 - den.log2) := by
  have hden' : (0 : ℚ) < den := by exact_mod_cast hden
  have hnumLow : ((2 : ℚ) ^ (num.log2 : Int)) ≤ num := by
    exact_mod_cast Nat.log2_self_le hnum.ne'
  have hnumHigh : (num : ℚ) < 2 ^ ((num.log2 : Int) + 1) := by
    exact_mod_cast (Nat.lt_log2_self : num < 2 ^ (num.log2 + 1))
  have hdenLow : ((2 : ℚ) ^ (den.log2 : Int)) ≤ den := by
    exact_mod_cast Nat.log2_self_le hden.ne'
  have hdenHigh : (den : ℚ) ≤ 2 ^ ((den.log2 : Int) + 1) := by
    exact_mod_cast (Nat.lt_log2_self : den < 2 ^ (den.log2 + 1)).le
  rw [zpow_sub₀ two_ne_zero, zpow_sub₀ two_ne_zero]
  constructor
  · calc (2 : ℚ) ^ (num.log2 : Int) / 2 ^ ((den.log2 : Int) + 1)
        ≤ num / 2 ^ ((den.log2 : Int) + 1) := by gcongr
      _ ≤ num / den := by gcongr
  · calc (num : ℚ) / den < 2 ^ ((num.log2 : Int) + 1) / den := by gcongr
      _ ≤ 2 ^ ((num.log2 : Int) + 1) / 2 ^ (den.log2 : Int) := by gcongr

/-- The order of a fraction is where the powers of two enclose it. -/
theorem binaryOrder_eq {num den : Nat} (hnum : 0 < num) (hden : 0 < den) {order : Int}
    (hlow : (2 : ℚ) ^ order ≤ num / den) (hhigh : (num : ℚ) / den < 2 ^ (order + 1)) :
    binaryOrder num den = order := by
  obtain ⟨hbelow, habove⟩ := ratio_bracket hnum hden
  have hupper := (zpow_lt_zpow_iff_right₀ one_lt_two).mp (hlow.trans_lt habove)
  have hlower := (zpow_lt_zpow_iff_right₀ one_lt_two).mp (hbelow.trans_lt hhigh)
  unfold binaryOrder
  dsimp only
  split
  · rename_i hreaches
    rw [scaledDown_le_iff num hden] at hreaches
    have := (zpow_lt_zpow_iff_right₀ one_lt_two).mp (hreaches.trans_lt hhigh)
    omega
  · rename_i hmisses
    rw [scaledDown_le_iff num hden, not_le] at hmisses
    have := (zpow_lt_zpow_iff_right₀ one_lt_two).mp (hlow.trans_lt hmisses)
    omega

/-- No further than a half from a whole number, without halves. -/
private theorem Within.of_half {closed : Prop} {num den whole : Nat} (hden : 0 < den)
    (h : Within closed (whole - 1 / 2) (whole + 1 / 2) (num / den)) :
    2 * (whole * den) ≤ 2 * num + den ∧ 2 * num ≤ 2 * (whole * den) + den ∧
      (¬closed → 2 * (whole * den) < 2 * num + den ∧ 2 * num < 2 * (whole * den) + den) := by
  have hden' : (0 : ℚ) < den := by exact_mod_cast hden
  obtain ⟨hlow, hhigh, hopen⟩ := h
  rw [le_div_iff₀ hden'] at hlow
  rw [div_le_iff₀ hden'] at hhigh
  rw [lt_div_iff₀ hden', div_lt_iff₀ hden'] at hopen
  refine ⟨?_, ?_, fun hnot => ⟨?_, ?_⟩⟩
  · have : (2 * (whole * den) : ℚ) ≤ 2 * num + den := by linarith
    exact_mod_cast this
  · have : (2 * num : ℚ) ≤ 2 * (whole * den) + den := by linarith
    exact_mod_cast this
  · have : (2 * (whole * den) : ℚ) < 2 * num + den := by linarith [(hopen hnot).1]
    exact_mod_cast this
  · have : (2 * num : ℚ) < 2 * (whole * den) + den := by linarith [(hopen hnot).2]
    exact_mod_cast this

/-- A fraction no further than a half from a whole number is rounded to it, from an odd one less. -/
theorem roundHalfEven_eq {num den whole : Nat} (hden : 0 < den)
    (h : Within (whole % 2 = 0) (whole - 1 / 2) (whole + 1 / 2) (num / den)) :
    roundHalfEven num den = whole := by
  obtain ⟨hbelow, habove, hstrict⟩ := h.of_half hden
  have hsplit := Nat.div_add_mod' num den
  have hmod := Nat.mod_lt num hden
  unfold roundHalfEven
  dsimp only
  -- the whole number is the quotient or the next one
  have hle : num / den ≤ whole := by
    by_contra hgt
    have := Nat.mul_le_mul_right den (Nat.lt_of_not_le hgt)
    rw [Nat.succ_mul] at this
    omega
  have hge : whole ≤ num / den + 1 := by
    by_contra hgt
    have := Nat.mul_le_mul_right den (Nat.lt_of_not_le hgt)
    rw [Nat.succ_mul, Nat.succ_mul] at this
    omega
  rcases Nat.eq_or_lt_of_le hle with heq | hlt
  · have hmul : num / den * den = whole * den := by rw [heq]
    split_ifs <;> omega
  · have hnext : whole = num / den + 1 := by omega
    have hmul : num / den * den + den = whole * den := by rw [hnext, Nat.succ_mul]
    split_ifs <;> omega

/-! ## Representable numbers -/

namespace BinaryFormat

variable {format : BinaryFormat} {num den steps significand : Nat}

theorem hiddenBit_pos (format : BinaryFormat) : 0 < format.hiddenBit :=
  Nat.pow_pos (by decide)

/-- A significand that the format holds at `steps` above the least exponent: it has no more than the
format's digits, and all of them unless the exponent is the least one. -/
structure Holds (format : BinaryFormat) (steps significand : Nat) : Prop where
  lt : significand < 2 * format.hiddenBit
  normal : steps = 0 ∨ format.hiddenBit ≤ significand

/-- How far the next number below is, in units of the last place: less than one place below a power
of two, where the places are smaller. -/
def placeBelow (format : BinaryFormat) (steps significand : Nat) : ℚ :=
  if significand = format.hiddenBit ∧ 0 < steps then 1 / 2 else 1

theorem placeBelow_pos (format : BinaryFormat) (steps significand : Nat) :
    0 < format.placeBelow steps significand := by
  unfold placeBelow
  split <;> norm_num

theorem placeBelow_le_one (format : BinaryFormat) (steps significand : Nat) :
    format.placeBelow steps significand ≤ 1 := by
  unfold placeBelow
  split <;> norm_num

/-- The last place of a fraction whose digits before the point are all that the format has. -/
private theorem place_eq (hnum : num ≠ 0) (hden : 0 < den)
    (hlow : steps = 0 ∨
      (format.hiddenBit : ℚ) ≤ num / den / 2 ^ (format.leastExponent + steps))
    (hhigh : (num : ℚ) / den / 2 ^ (format.leastExponent + steps) < 2 * format.hiddenBit) :
    max (binaryOrder num den - format.fractionBits) format.leastExponent =
      format.leastExponent + steps := by
  have hnum' : (0 : ℚ) < num := by exact_mod_cast Nat.pos_of_ne_zero hnum
  have hden' : (0 : ℚ) < den := by exact_mod_cast hden
  have hunit : (0 : ℚ) < 2 ^ (format.leastExponent + steps) := by positivity
  have hbit : (format.hiddenBit : ℚ) = 2 ^ (format.fractionBits : Int) := by
    rw [hiddenBit, Nat.pow_eq, Nat.cast_pow, Nat.cast_ofNat, zpow_natCast]
  have htwo : (2 : ℚ) ≠ 0 := by norm_num
  obtain ⟨order, hbelow, habove⟩ := exists_mem_Ico_zpow (div_pos hnum' hden') one_lt_two
  rw [binaryOrder_eq (Nat.pos_of_ne_zero hnum) hden hbelow habove]
  rw [div_lt_iff₀ hunit, hbit, ← zpow_one_add₀ htwo, ← zpow_add₀ htwo] at hhigh
  rw [le_div_iff₀ hunit, hbit, ← zpow_add₀ htwo] at hlow
  have hle := (zpow_lt_zpow_iff_right₀ one_lt_two).mp (hbelow.trans_lt hhigh)
  rcases hlow with rfl | hlow
  · rw [Nat.cast_zero, add_zero] at hle ⊢
    omega
  · have hge := (zpow_lt_zpow_iff_right₀ one_lt_two).mp (hlow.trans_lt habove)
    omega

/-- Where the last place is known, the digits are those of the whole number that the fraction is
rounded to in units of that place. -/
private theorem nearest_of_place (hnum : num ≠ 0) (hden : 0 < den) {whole : Nat}
    (hplace : max (binaryOrder num den - format.fractionBits) format.leastExponent =
      format.leastExponent + steps)
    (h : Within (whole % 2 = 0) (whole - 1 / 2) (whole + 1 / 2)
      (num / den / 2 ^ (format.leastExponent + steps))) :
    format.nearest num den = min format.infinity (steps * format.hiddenBit + whole) := by
  have hpos := scaledDown_pos num hden (format.leastExponent + steps)
  rw [← scaledDown_ratio] at h
  unfold nearest
  rw [if_neg hnum]
  dsimp only
  rw [hplace, add_sub_cancel_left, Int.toNat_natCast, roundHalfEven_eq hpos h]

/-- Just below a power of two the places are half as large, and the power is the even number of
them. -/
private theorem nearest_below_power (hnum : num ≠ 0) (hden : 0 < den)
    (hlow : (format.hiddenBit : ℚ) - 1 / 4 ≤
      num / den / 2 ^ (format.leastExponent + (steps + 1 : Nat)))
    (hhigh : (num : ℚ) / den / 2 ^ (format.leastExponent + (steps + 1 : Nat)) <
      format.hiddenBit) :
    format.nearest num den =
      min format.infinity ((steps + 1) * format.hiddenBit + format.hiddenBit) := by
  have hone : (1 : ℚ) ≤ format.hiddenBit := by exact_mod_cast format.hiddenBit_pos
  have hdouble : (num : ℚ) / den / 2 ^ (format.leastExponent + steps) =
      2 * (num / den / 2 ^ (format.leastExponent + (steps + 1 : Nat))) := by
    rw [Nat.cast_succ, ← add_assoc, zpow_add_one₀ two_ne_zero]
    field_simp
  have hplace : max (binaryOrder num den - format.fractionBits) format.leastExponent =
      format.leastExponent + steps := by
    refine place_eq hnum hden (.inr ?_) ?_ <;> rw [hdouble] <;> linarith
  have hwithin : Within ((2 * format.hiddenBit) % 2 = 0) ((2 * format.hiddenBit : Nat) - 1 / 2)
      ((2 * format.hiddenBit : Nat) + 1 / 2)
      (num / den / 2 ^ (format.leastExponent + steps)) := by
    rw [hdouble, Nat.cast_mul, Nat.cast_ofNat]
    exact ⟨by linarith, by linarith, fun hodd => absurd (Nat.mul_mod_right 2 _) hodd⟩
  rw [nearest_of_place hnum hden hplace hwithin, two_mul, Nat.succ_mul, Nat.add_assoc]

/-- What lies in the interval around a number that the format holds is rounded to that number. -/
theorem nearest_eq (hden : 0 < den) (hholds : format.Holds steps significand)
    (h : Within (significand % 2 = 0) (significand - format.placeBelow steps significand / 2)
      (significand + 1 / 2) (num / den / 2 ^ (format.leastExponent + steps))) :
    format.nearest num den = min format.infinity (steps * format.hiddenBit + significand) := by
  have hbelow := format.placeBelow_le_one steps significand
  have hpos := format.hiddenBit_pos
  have hdigits : (significand : ℚ) + 1 ≤ 2 * format.hiddenBit := by exact_mod_cast hholds.lt
  obtain ⟨hlow, hhigh, hodd⟩ := h
  rcases eq_or_ne num 0 with rfl | hnum
  · rw [Nat.cast_zero, zero_div, zero_div] at hlow
    have hlt : (significand : ℚ) < 1 := by linarith
    have hzero : significand = 0 := Nat.lt_one_iff.mp (by exact_mod_cast hlt)
    have hsteps : steps = 0 := hholds.normal.resolve_right (by omega)
    simp [nearest, hzero, hsteps]
  by_cases hfull : steps = 0 ∨
      (format.hiddenBit : ℚ) ≤ num / den / 2 ^ (format.leastExponent + steps)
  · have hplace := place_eq hnum hden hfull (by linarith)
    refine nearest_of_place hnum hden hplace ⟨by linarith, hhigh, fun hne => ?_⟩
    exact ⟨by linarith [(hodd hne).1], (hodd hne).2⟩
  · -- the fraction is below the number, and the number is the least one with its exponent
    rw [not_or, not_le] at hfull
    obtain ⟨hsteps, hlt⟩ := hfull
    have hleast : significand = format.hiddenBit := by
      refine Nat.le_antisymm ?_ (hholds.normal.resolve_left hsteps)
      have : (significand : ℚ) < format.hiddenBit + 1 := by linarith
      exact Nat.lt_succ_iff.mp (by exact_mod_cast this)
    have hhalf : format.placeBelow steps significand = 1 / 2 :=
      if_pos ⟨hleast, Nat.pos_of_ne_zero hsteps⟩
    obtain ⟨less, rfl⟩ := Nat.exists_eq_succ_of_ne_zero hsteps
    rw [hhalf, hleast] at hlow
    rw [hleast]
    exact nearest_below_power hnum hden (by linarith) hlt

/-- A number that the format holds is rounded to itself. -/
theorem nearest_exact (hden : 0 < den) (hholds : format.Holds steps significand)
    (hvalue : (num : ℚ) / den = significand * 2 ^ (format.leastExponent + steps)) :
    format.nearest num den = min format.infinity (steps * format.hiddenBit + significand) := by
  have hbelow := format.placeBelow_pos steps significand
  refine nearest_eq hden hholds ?_
  rw [hvalue, mul_div_assoc, div_self (by positivity), mul_one]
  exact .of_lt (by linarith) (by linarith)

end BinaryFormat

end BinarySchema
