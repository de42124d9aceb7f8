import BinarySchema.Proofs.Codec
import BinarySchema.Proofs.Number.Whole

/-!
# Ranges of whole numbers

An encoding of whole numbers takes the numbers of its range and nothing else, whichever form a
scalar holds them in, but for floats from a certain magnitude on: they are refused even where a
signed or unsigned scalar of the same number is stored.
-/

namespace BinarySchema

/-- The whole numbers that a representation holds in so many bytes. -/
def Representation.Holds (representation : Representation) (size : UInt64) (whole : Int) : Prop :=
  match representation with
  | .integer => -2 ^ (8 * size.toNat - 1) ≤ whole ∧ whole ≤ 2 ^ (8 * size.toNat - 1) - 1
  | .unsigned => 0 ≤ whole ∧ whole ≤ 2 ^ (8 * size.toNat) - 1
  | .floating => False

instance (representation : Representation) (size : UInt64) (whole : Int) :
    Decidable (representation.Holds size whole) :=
  match representation with
  | .integer => inferInstanceAs (Decidable (_ ∧ _))
  | .unsigned => inferInstanceAs (Decidable (_ ∧ _))
  | .floating => inferInstanceAs (Decidable False)

/-- A scalar that such an encoding takes. -/
def Representation.Takes (representation : Representation) (size : UInt64) (scalar : Scalar) :
    Prop :=
  ∃ whole : Int, scalar.number? = some (whole : ℚ) ∧ representation.Holds size whole ∧
    scalar.BelowWholeLimit

namespace Encoding

variable {representation : Representation} {size : UInt64} {encoding : Encoding} {scalar : Scalar}

theorem exists_encode?_iff (hselect : select? representation size = some encoding)
    (hwhole : representation ≠ .floating) :
    (∃ word, encoding.encode? scalar = some word) ↔
      ∃ whole, scalar.integer? = some whole ∧ representation.Holds size whole := by
  have hsize := width_of_select hselect
  rcases whole_cases hselect hwhole with ⟨rfl, width, rfl⟩ | ⟨rfl, width, rfl⟩
  · have hbits : width.bits = 8 * size.toNat := congrArg (8 * ·) hsize
    simp only [encode?, Representation.Holds, fitsSigned, Nat.pow_eq, hbits]
    cases scalar.integer? with
    | none => simp
    | some whole =>
        simp only [Nat.cast_pow, Nat.cast_ofNat, Bool.and_eq_true, decide_eq_true_eq,
          Option.ite_none_right_eq_some, Option.some.injEq, exists_and_left, ↓existsAndEq, and_true,
          Int.le_sub_one_iff, exists_eq_left']
  · have hbits : width.bits = 8 * size.toNat := congrArg (8 * ·) hsize
    simp only [encode?, Representation.Holds, fitsUnsigned, Nat.pow_eq, hbits]
    cases scalar.integer? with
    | none => simp
    | some whole =>
        simp only [Nat.cast_pow, Nat.cast_ofNat, Bool.and_eq_true, decide_eq_true_eq,
          Option.ite_none_right_eq_some, Option.some.injEq, exists_and_left, ↓existsAndEq, and_true,
          Int.le_sub_one_iff, exists_eq_left']

/-- Encodings of whole numbers look at nothing but the whole number. -/
theorem encode?_congr (hselect : select? representation size = some encoding)
    (hwhole : representation ≠ .floating) {other : Scalar}
    (h : other.integer? = scalar.integer?) : encoding.encode? other = encoding.encode? scalar := by
  rcases whole_cases hselect hwhole with ⟨-, width, rfl⟩ | ⟨-, width, rfl⟩ <;>
    simp only [encode?, h]

end Encoding

namespace ScalarCodec

variable {representation : Representation} {size : UInt64} {order : ByteOrder}
  {codec : ScalarCodec} {buffer : Buffer} {start : UInt64} {scalar : Scalar} {typeName : String}

private theorem integer?_eq_of_number?_eq {other : Scalar} (h : other.number? = scalar.number?)
    (hscalar : scalar.BelowWholeLimit) (hother : other.BelowWholeLimit) :
    other.integer? = scalar.integer? := by
  ext whole
  rw [Scalar.integer?_eq_some_iff, Scalar.integer?_eq_some_iff, h]
  exact and_congr_right fun _ => iff_of_true hother hscalar

/-- Where there is room, an encoding of whole numbers takes a scalar when the number that it holds
is a whole one in range and no large float.  It refuses the others by name, and does with scalars of
one number the same. -/
theorem write_whole (hselect : select? representation size order = some codec)
    (hwhole : representation ≠ .floating) (buffer : Buffer) (start : UInt64)
    (hroom : start.toNat + size.toNat ≤ buffer.size) (scalar : Scalar) (typeName : String) :
    ((∃ written, codec.write buffer start scalar typeName = .ok written) ↔
        representation.Takes size scalar) ∧
      (¬representation.Takes size scalar →
        codec.write buffer start scalar typeName = .error (.valueOutOfRange typeName scalar)) ∧
      ∀ other : Scalar, other.number? = scalar.number? → scalar.BelowWholeLimit →
        other.BelowWholeLimit →
        (codec.write buffer start other typeName).toOption =
          (codec.write buffer start scalar typeName).toOption := by
  have hencoding := encoding_of_select hselect
  have hfits : codec.fits buffer start = true := fits_iff.mpr (width_of_select hselect ▸ hroom)
  have htakes : (∃ word, codec.encoding.encode? scalar = some word) ↔
      representation.Takes size scalar := by
    rw [Encoding.exists_encode?_iff hencoding hwhole]
    simp only [Scalar.integer?_eq_some_iff, Representation.Takes, and_right_comm, and_assoc]
  refine ⟨?_, fun hrefused => ?_, fun other hsame hscalar hother => ?_⟩
  · rw [← htakes, write_of_fits hfits]
    cases codec.encoding.encode? scalar <;> simp
  · rw [write_of_fits hfits]
    cases hword : codec.encoding.encode? scalar with
    | none => rfl
    | some word => exact absurd (htakes.mp ⟨word, hword⟩) hrefused
  · have hword := Encoding.encode?_congr hencoding hwhole
      (integer?_eq_of_number?_eq hsame hscalar hother)
    rw [write_of_fits hfits, write_of_fits hfits, hword]
    cases codec.encoding.encode? scalar <;> rfl

/-- Three bytes, the number 258 in the last two of them, as a float. -/
theorem write_whole_two_bytes :
    let codec : ScalarCodec := ⟨.signed .two, .big⟩
    let scalar : Scalar := .float ⟨4643246400191070208⟩
    select? .integer 2 .big = some codec ∧ Representation.integer.Takes 2 scalar ∧
      (∃ written, codec.write #[7, 7, 7] 1 scalar "word" = .ok written) ∧
      codec.write #[7, 7, 7] 1 (.int 40000) "word" =
        .error (.valueOutOfRange "word" (.int 40000)) ∧
      (codec.write #[7, 7, 7] 1 (.uint 258) "word").toOption =
        (codec.write #[7, 7, 7] 1 scalar "word").toOption := by
  intro codec scalar
  have hselect : select? .integer 2 .big = some codec := rfl
  have hwhole : scalar.integer? = some 258 := by rfl
  obtain ⟨hnumber, hlimit⟩ := Scalar.integer?_eq_some_iff.mp hwhole
  have htakes : Representation.integer.Takes 2 scalar :=
    ⟨258, hnumber, by decide, hlimit⟩
  have hrefused : ¬Representation.integer.Takes 2 (.int 40000) := by
    rintro ⟨whole, hnumber, hholds, -⟩
    have hvalue : whole = 40000 := by
      have hcast : ((40000 : Int) : ℚ) = whole := Option.some.inj hnumber
      exact_mod_cast hcast.symm
    subst hvalue
    exact absurd hholds (by decide)
  obtain ⟨hwritten, -, hsame⟩ :=
    write_whole hselect (by decide) #[7, 7, 7] 1 (by decide) scalar "word"
  obtain ⟨-, herror, -⟩ :=
    write_whole hselect (by decide) #[7, 7, 7] 1 (by decide) (.int 40000) "word"
  exact ⟨hselect, htakes, hwritten.mpr htakes, herror hrefused,
    hsame (.uint 258) (by rw [hnumber]; rfl) hlimit trivial⟩

/-- The number `18 * 10 ^ 18` fits eight unsigned bytes, and is stored in them, but not from a
float. -/
theorem write_large_float :
    let codec : ScalarCodec := ⟨.unsigned .eight, .little⟩
    let scalar : Scalar := .float ⟨4895194658196988160⟩
    select? .unsigned 8 .little = some codec ∧
      scalar.number? = some ((18000000000000000000 : Int) : ℚ) ∧
      scalar.number? = (Scalar.uint 18000000000000000000).number? ∧
      Representation.unsigned.Holds 8 18000000000000000000 ∧
      codec.write (.zeros 8) 0 scalar "count" = .error (.valueOutOfRange "count" scalar) ∧
      codec.write (.zeros 8) 0 (.uint 18000000000000000000) "count" =
        .ok #[0, 0, 8, 197, 161, 216, 204, 249] := by
  intro codec scalar
  have hwhole : (Binary64.mk 4895194658196988160).integer? = some 18000000000000000000 := by rfl
  have hnumber : scalar.number? = some ((18000000000000000000 : Int) : ℚ) :=
    Binary64.integer?_eq_some_iff.mp hwhole
  exact ⟨rfl, hnumber, hnumber, by decide, by rfl, by rfl⟩

end ScalarCodec

end BinarySchema
