import BinarySchema.Proofs.Number.Exact
import BinarySchema.Scalar

/-!
# Whole numbers

The number that a scalar holds, as a fraction, and when it is found to be whole.  Floats are found
to hold a whole number exactly when they do, whatever their magnitude; scalars take only those below
a limit.
-/

namespace BinarySchema

/-- A fraction is a whole number when it divides without remainder. -/
theorem div_eq_intCast_iff {num den : Nat} (hden : 0 < den) {whole : Int} :
    (num : ℚ) / den = whole ↔ num % den = 0 ∧ ((num / den : Nat) : Int) = whole := by
  have hden' : (den : ℚ) ≠ 0 := by exact_mod_cast hden.ne'
  rw [div_eq_iff hden']
  constructor
  · intro h
    have hmul : (num : Int) = whole * den := by exact_mod_cast h
    have hdvd : den ∣ num := Int.natCast_dvd_natCast.mp ⟨whole, by rw [hmul, mul_comm]⟩
    refine ⟨Nat.mod_eq_zero_of_dvd hdvd, ?_⟩
    rw [Int.natCast_div, hmul]
    exact Int.mul_ediv_cancel whole (by exact_mod_cast hden.ne')
  · rintro ⟨hmod, rfl⟩
    exact_mod_cast (Nat.div_mul_cancel (Nat.dvd_of_mod_eq_zero hmod)).symm

/-- The number that a bit pattern stands for, if it stands for one. -/
def Datum.number? : Datum → Option ℚ
  | .finite negative significand exponent =>
      some ((if negative then -1 else 1) * (significand * 2 ^ exponent))
  | .infinite _ => none
  | .nan .. => none

/-- A float holds a whole number exactly when the number that it stands for is whole. -/
theorem Binary64.integer?_eq_some_iff {x : Binary64} {whole : Int} :
    x.integer? = some whole ↔ x.datum.number? = some (whole : ℚ) := by
  unfold integer?
  cases hdatum : x.datum with
  | infinite | nan => simp [Datum.number?]
  | finite negative significand exponent =>
      have hpos := scaledDown_pos significand Nat.one_pos (-exponent)
      have hratio := scaledDown_ratio significand 1 (-exponent)
      rw [Nat.cast_one, div_one, zpow_neg, div_inv_eq_mul] at hratio
      simp only [Datum.number?, ← hratio, Option.some.injEq]
      generalize scaledDown significand 1 (-exponent) = fraction at hpos
      obtain ⟨num, den⟩ := fraction
      cases negative with
      | false =>
          simp only [Bool.false_eq_true, if_false, one_mul, div_eq_intCast_iff hpos]
          split <;> simp_all
      | true =>
          have hneg : (-1 : ℚ) * (num / den) = whole ↔ (num : ℚ) / den = (-whole : Int) := by
            rw [neg_one_mul, neg_eq_iff_eq_neg, Int.cast_neg]
          simp only [if_true, hneg, div_eq_intCast_iff hpos]
          split <;> simp_all [neg_eq_iff_eq_neg]

namespace Scalar

/-- The number that a scalar holds. -/
def number? : Scalar → Option ℚ
  | .int value => some value.toInt
  | .uint value => some value.toNat
  | .float value => value.datum.number?

/-- A whole number that comes as a float stays below the limit. -/
def BelowWholeLimit : Scalar → Prop
  | .float value => ∀ whole, value.integer? = some whole → whole.natAbs < wholeLimit
  | _ => True

/-- The whole number of a scalar is the number that it holds, except in large floats. -/
theorem integer?_eq_some_iff {scalar : Scalar} {whole : Int} :
    scalar.integer? = some whole ↔
      scalar.number? = some (whole : ℚ) ∧ scalar.BelowWholeLimit := by
  cases scalar with
  | int value => simp [integer?, number?, BelowWholeLimit]
  | uint value =>
      simp only [integer?, number?, BelowWholeLimit, and_true, Option.some.injEq]
      norm_cast
  | float value =>
      simp only [integer?, number?, BelowWholeLimit, ← Binary64.integer?_eq_some_iff]
      cases value.integer? with
      | none => simp
      | some other =>
          simp only [Option.some.injEq, forall_eq']
          by_cases hlimit : other.natAbs < wholeLimit <;> simp [hlimit]

end Scalar

end BinarySchema
