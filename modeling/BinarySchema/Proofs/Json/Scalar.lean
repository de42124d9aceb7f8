import BinarySchema.Json.Scalar

/-!
# Scalars in documents

What a scalar is after it was written into a document and read from there.  Whole numbers keep their
value and become signed if a signed word holds them; infinities and NaNs are lost.
-/

namespace BinarySchema

namespace Scalar

def isFinite : Scalar → Bool
  | .float value => value.isFinite
  | _ => true

/-- The scalar that a number in a document stands for, if the number came from this one. -/
def reloaded : Scalar → Scalar
  | .uint word =>
      if word.toNat ≤ Int64.maxValue.toInt then .int (Int64.ofNat word.toNat) else .uint word
  | scalar => scalar

theorem exists_number_of_isFinite {scalar : Scalar} (h : scalar.isFinite = true) :
    ∃ number, scalar.toDocument = .number number ∧ number.toScalar = scalar.reloaded := by
  cases scalar with
  | float value => exact ⟨.float value, if_pos h, rfl⟩
  | int word =>
      refine ⟨.integer word.toInt, rfl, ?_⟩
      have hlow : Int64.minValue.toInt ≤ word.toInt := word.le_toInt
      rw [Json.Number.toScalar, ofInteger?, if_pos ⟨hlow, word.toInt_le⟩, Int64.ofInt_toInt]
      rfl
  | uint word =>
      refine ⟨.integer word.toNat, rfl, ?_⟩
      have hlow : Int64.minValue.toInt ≤ (word.toNat : Int) := by
        have : Int64.minValue.toInt = -2 ^ 63 := by decide
        omega
      have hhigh : (0 : Int) ≤ word.toNat ∧ (word.toNat : Int) < UInt64.size := by
        have := word.toNat_lt
        simp only [UInt64.size]
        omega
      rw [Json.Number.toScalar, ofInteger?, reloaded]
      by_cases hfits : (word.toNat : Int) ≤ Int64.maxValue.toInt
      · rw [if_pos ⟨hlow, hfits⟩, if_pos hfits]
        rfl
      · rw [if_neg (fun h => hfits h.2), if_pos hhigh, if_neg hfits]
        simp

/-- The scalar that a document gives back, if it has one for this scalar at all. -/
def reread? (scalar : Scalar) : Option Scalar :=
  if scalar.isFinite then some scalar.reloaded else none

theorem toDocument_of_not_isFinite {scalar : Scalar} (h : scalar.isFinite = false) :
    scalar.toDocument = .null := by
  cases scalar with
  | int | uint => contradiction
  | float value =>
      rw [isFinite] at h
      rw [toDocument, Json.Document.ofFloat, h]
      rfl

end Scalar

end BinarySchema
