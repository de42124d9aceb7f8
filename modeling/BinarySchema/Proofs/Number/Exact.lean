import BinarySchema.Proofs.Number.Nearest

/-!
# Exact rounding

A number that a binary format represents is rounded to itself.  So the bits of a number, infinity or
NaN determine the bits, and 64 bits hold every number of 32 bits exactly.
-/

namespace BinarySchema

namespace BinaryFormat

variable {format : BinaryFormat}

/-! ## Bit patterns -/

theorem signWeight_eq (format : BinaryFormat) :
    format.signWeight = 2 ^ format.exponentBits * format.hiddenBit := by
  simp only [signWeight, hiddenBit, Nat.pow_eq, Nat.pow_add, Nat.mul_comm]

theorem signBits_le (format : BinaryFormat) (negative : Bool) :
    format.signBits negative ≤ format.signWeight := by
  cases negative <;> simp [signBits]

theorem infinity_add_lt {payload : Nat} (h : payload < format.hiddenBit) :
    format.infinity + payload < format.signWeight := by
  have hfields : format.topField + 1 = 2 ^ format.exponentBits :=
    Nat.sub_add_cancel (Nat.pow_pos (by decide))
  rw [signWeight_eq, ← hfields, Nat.succ_mul, infinity]
  omega

/-- What a pattern stands for, by its sign and the rest of its bits. -/
theorem decode_signBits_add {magnitude : Nat} (hlt : magnitude < format.signWeight)
    (negative : Bool) :
    format.decode (format.signBits negative + magnitude) =
      if magnitude / format.hiddenBit = format.topField then
        if magnitude % format.hiddenBit = 0 then .infinite negative
        else .nan negative (magnitude % format.hiddenBit)
      else if magnitude / format.hiddenBit = 0 then
        .finite negative (magnitude % format.hiddenBit) format.leastExponent
      else .finite negative (format.hiddenBit + magnitude % format.hiddenBit)
        (format.leastExponent + (magnitude / format.hiddenBit : Nat) - 1) := by
  have hpos := format.hiddenBit_pos
  have hweight := format.signWeight_eq
  have hfield : magnitude / format.hiddenBit < 2 ^ format.exponentBits := by
    rw [Nat.div_lt_iff_lt_mul hpos, ← hweight]
    exact hlt
  have hsign : ((format.signBits negative + magnitude) / format.signWeight % 2 == 1) = negative := by
    cases negative with
    | false => simp [signBits, Nat.div_eq_of_lt hlt]
    | true =>
        have hone : (format.signWeight + magnitude) / format.signWeight = 1 := by
          rw [Nat.add_div_left _ (by omega), Nat.div_eq_of_lt hlt]
        simp [signBits, hone]
  have hfraction : (format.signBits negative + magnitude) % format.hiddenBit =
      magnitude % format.hiddenBit := by
    cases negative with
    | false => simp [signBits]
    | true => rw [signBits, if_pos rfl, hweight, Nat.mul_add_mod']
  have hexponent : (format.signBits negative + magnitude) / format.hiddenBit %
      Nat.pow 2 format.exponentBits = magnitude / format.hiddenBit := by
    cases negative with
    | false => simp [signBits, Nat.mod_eq_of_lt hfield]
    | true =>
        rw [signBits, if_pos rfl, hweight, Nat.add_comm, Nat.add_mul_div_right _ _ hpos]
        simp [Nat.mod_eq_of_lt hfield]
  unfold decode
  simp only [hsign, hfraction, hexponent]

theorem decode_finite {steps significand : Nat} (hholds : format.Holds steps significand)
    (hlt : steps * format.hiddenBit + significand < format.infinity) (negative : Bool) :
    format.decode (format.signBits negative + (steps * format.hiddenBit + significand)) =
      .finite negative significand (format.leastExponent + steps) := by
  have hpos := format.hiddenBit_pos
  have htop := format.infinity_add_lt hpos
  have hfield : (steps * format.hiddenBit + significand) / format.hiddenBit < format.topField := by
    rw [Nat.div_lt_iff_lt_mul hpos]
    exact hlt
  rw [decode_signBits_add (by omega), if_neg hfield.ne]
  rw [Nat.mul_comm, Nat.mul_add_div hpos, Nat.mul_add_mod]
  rcases Nat.lt_or_ge significand format.hiddenBit with hlow | hhigh
  · have hsteps : steps = 0 := hholds.normal.resolve_right (by omega)
    simp [hsteps, Nat.div_eq_of_lt hlow, Nat.mod_eq_of_lt hlow]
  · have hdiv : significand / format.hiddenBit = 1 := by
      rw [Nat.div_eq_iff hpos]
      have := hholds.lt
      omega
    have hmod : format.hiddenBit + significand % format.hiddenBit = significand := by
      have hlt := hholds.lt
      rw [Nat.mod_eq_sub_mod hhigh, Nat.mod_eq_of_lt (by omega)]
      omega
    rw [hdiv, if_neg (by omega), hmod]
    congr 1
    push_cast
    omega

theorem decode_infinite (negative : Bool) :
    format.decode (format.signBits negative + format.infinity) = .infinite negative := by
  have hpos := format.hiddenBit_pos
  have hlt : format.infinity < format.signWeight := by
    simpa using infinity_add_lt hpos
  rw [decode_signBits_add hlt, infinity, Nat.mul_div_cancel _ hpos, if_pos rfl, Nat.mul_mod_left,
    if_pos rfl]

theorem decode_nan {payload : Nat} (hlt : payload < format.hiddenBit) (hne : payload ≠ 0)
    (negative : Bool) :
    format.decode (format.signBits negative + (format.infinity + payload)) =
      .nan negative payload := by
  have hpos := format.hiddenBit_pos
  rw [decode_signBits_add (infinity_add_lt hlt), infinity, Nat.mul_comm, Nat.mul_add_div hpos,
    Nat.div_eq_of_lt hlt, Nat.mul_add_mod, Nat.mod_eq_of_lt hlt, Nat.add_zero, if_pos rfl,
    if_neg hne]

theorem exists_signBits_add {bits : Nat} (hbits : bits < 2 * format.signWeight) :
    ∃ negative magnitude, magnitude < format.signWeight ∧
      bits = format.signBits negative + magnitude := by
  rcases Nat.lt_or_ge bits format.signWeight with hlow | hhigh
  · exact ⟨false, bits, hlow, by simp [signBits]⟩
  · exact ⟨true, bits - format.signWeight, by omega, by simp [signBits]; omega⟩

theorem bits_cases {bits : Nat} (hbits : bits < 2 * format.signWeight) :
    (∃ negative steps significand, format.Holds steps significand ∧
      steps * format.hiddenBit + significand < format.infinity ∧
      bits = format.signBits negative + (steps * format.hiddenBit + significand)) ∨
    (∃ negative, bits = format.signBits negative + format.infinity) ∨
    ∃ negative payload, payload < format.hiddenBit ∧ payload ≠ 0 ∧
      bits = format.signBits negative + (format.infinity + payload) := by
  have hpos := format.hiddenBit_pos
  obtain ⟨negative, magnitude, hlt, rfl⟩ := exists_signBits_add hbits
  have hsplit := Nat.div_add_mod' magnitude format.hiddenBit
  have hfraction := Nat.mod_lt magnitude hpos
  rcases Nat.lt_or_ge magnitude format.infinity with hfinite | hspecial
  · refine .inl ⟨negative, ?_⟩
    rcases Nat.eq_zero_or_pos (magnitude / format.hiddenBit) with hzero | hnormal
    · rw [hzero] at hsplit
      exact ⟨0, magnitude, ⟨by omega, .inl rfl⟩, by simpa using hfinite, by simp⟩
    · obtain ⟨field, hfield⟩ := Nat.exists_eq_succ_of_ne_zero hnormal.ne'
      rw [hfield, Nat.succ_mul] at hsplit
      have hsum : field * format.hiddenBit +
          (format.hiddenBit + magnitude % format.hiddenBit) = magnitude := by omega
      exact ⟨field, format.hiddenBit + magnitude % format.hiddenBit, ⟨by omega, .inr (by omega)⟩,
        by rwa [hsum], by rw [hsum]⟩
  · refine .inr ?_
    have hend : magnitude < format.infinity + format.hiddenBit := by
      have hfields : format.topField + 1 = 2 ^ format.exponentBits :=
        Nat.sub_add_cancel (Nat.pow_pos (by decide))
      rw [signWeight_eq, ← hfields, Nat.succ_mul] at hlt
      exact hlt
    rcases Nat.eq_or_lt_of_le hspecial with heq | hgt
    · exact .inl ⟨negative, by rw [heq]⟩
    · exact .inr ⟨negative, magnitude - format.infinity, by omega, by omega, by
        rw [Nat.add_sub_of_le hspecial]⟩

/-- A number that the format holds is encoded exactly, however it is written. -/
theorem encode_exact {steps significand other : Nat} {exponent : Int}
    (hholds : format.Holds steps significand)
    (hlt : steps * format.hiddenBit + significand < format.infinity)
    (hvalue : (other : ℚ) * 2 ^ exponent = significand * 2 ^ (format.leastExponent + steps))
    (negative : Bool) :
    format.encode (.finite negative other exponent) =
      format.signBits negative + (steps * format.hiddenBit + significand) := by
  have hpos := scaledDown_pos other Nat.one_pos (-exponent)
  have hratio := scaledDown_ratio other 1 (-exponent)
  rw [Nat.cast_one, div_one, zpow_neg, div_inv_eq_mul, hvalue] at hratio
  unfold encode
  dsimp only
  rw [nearest_exact hpos hholds hratio, Nat.min_eq_right hlt.le]

theorem quiet_lt (format : BinaryFormat) (payload : Nat) :
    payload % format.hiddenBit ||| format.hiddenBit / 2 < format.hiddenBit := by
  have hpos := format.hiddenBit_pos
  exact Nat.or_lt_two_pow (Nat.mod_lt _ hpos) (Nat.div_lt_self hpos (by decide))

theorem quiet_ne_zero (hbits : 0 < format.fractionBits) (payload : Nat) :
    payload % format.hiddenBit ||| format.hiddenBit / 2 ≠ 0 := by
  intro hzero
  have hhalf := (Nat.or_eq_zero_iff.mp hzero).2
  obtain ⟨bits, hbits⟩ := Nat.exists_eq_succ_of_ne_zero hbits.ne'
  rw [hiddenBit, hbits, Nat.pow_eq, Nat.pow_succ, Nat.mul_div_cancel _ (by decide)] at hhalf
  exact absurd hhalf (Nat.pow_pos (by decide)).ne'

end BinaryFormat

/-! ## Numbers of 32 bits among those of 64 -/

open BinaryFormat

/-- A number of 32 bits has digits to spare in 64 bits. -/
private theorem exists_double {steps significand : Nat} (hholds : single.Holds steps significand)
    (hlt : steps * single.hiddenBit + significand < single.infinity) :
    ∃ more digits, double.Holds more digits ∧
      more * double.hiddenBit + digits < double.infinity ∧
      (digits : ℚ) * 2 ^ (double.leastExponent + more) =
        significand * 2 ^ (single.leastExponent + steps) := by
  have hsteps : steps < 255 := by
    simp only [single, hiddenBit, infinity, topField, Nat.pow_eq] at hlt
    omega
  have hsignificand : significand < 2 ^ 24 := by simpa [single, hiddenBit] using hholds.lt
  rcases Nat.eq_zero_or_pos significand with rfl | hpos
  · exact ⟨0, 0, ⟨by decide, .inl rfl⟩, by decide, by simp⟩
  · have hlog : significand.log2 < 24 := (Nat.log2_lt hpos.ne').mpr hsignificand
    obtain ⟨shift, hshift⟩ : ∃ shift, significand.log2 + shift = 52 :=
      ⟨52 - significand.log2, by omega⟩
    have hlow : 2 ^ 52 ≤ significand * 2 ^ shift := by
      rw [← hshift, Nat.pow_add]
      exact Nat.mul_le_mul_right _ (Nat.log2_self_le hpos.ne')
    have hhigh : significand * 2 ^ shift < 2 ^ 53 := by
      have hdigits : 53 = significand.log2 + 1 + shift := by omega
      rw [hdigits, Nat.pow_add]
      exact Nat.mul_lt_mul_of_pos_right Nat.lt_log2_self (Nat.pow_pos (by decide))
    refine ⟨steps + 925 - shift, significand * 2 ^ shift, ⟨?_, .inr ?_⟩, ?_, ?_⟩
    · simpa [double, hiddenBit] using hhigh
    · simpa [double, hiddenBit] using hlow
    · simp only [double, hiddenBit, infinity, topField, Nat.pow_eq]
      omega
    · have hexponent : double.leastExponent + (steps + 925 - shift : Nat) =
          single.leastExponent + steps - shift := by
        simp only [double, single, leastExponent]
        norm_num
        omega
      rw [hexponent, zpow_sub₀ (by norm_num), zpow_natCast, Nat.cast_mul, Nat.cast_pow,
        Nat.cast_ofNat]
      field_simp

namespace Binary64

theorem isNaN_eq_true_iff {x : Binary64} :
    x.isNaN = true ↔ ∃ negative payload, x.datum = .nan negative payload := by
  unfold isNaN
  cases x.datum <;> simp

/-- The pieces of a finite number determine its bits. -/
theorem exists_holds_of_isFinite {x : Binary64} (h : x.isFinite = true) :
    ∃ negative significand steps, double.Holds steps significand ∧
      steps * double.hiddenBit + significand < double.infinity ∧
      x.datum = .finite negative significand (double.leastExponent + steps) ∧
      ∀ num den, double.nearest num den = steps * double.hiddenBit + significand →
        ofRatio negative num den = x := by
  have hword : x.bits.toNat < 2 * double.signWeight := x.bits.toNat_lt
  unfold isFinite at h
  rcases bits_cases hword with ⟨negative, steps, significand, hholds, hlt, hbits⟩ |
    ⟨negative, hbits⟩ | ⟨negative, payload, hlt, hne, hbits⟩
  · refine ⟨negative, significand, steps, hholds, hlt, ?_, fun num den hnearest => ?_⟩
    · rw [datum, hbits, decode_finite hholds hlt]
    · rw [ofRatio, hnearest, ← hbits, UInt64.ofNat_toNat]
  · rw [datum, hbits, decode_infinite] at h
    contradiction
  · rw [datum, hbits, decode_nan hlt hne] at h
    contradiction

private theorem datum_ofDatum {d : Datum} {bits : Nat} (hencode : double.encode d = bits)
    (hlt : bits < 2 * double.signWeight) : (ofDatum d).datum = double.decode bits := by
  have hword : bits < UInt64.size := hlt
  rw [datum, ofDatum, hencode, UInt64.toNat_ofNat_of_lt' hword]

private theorem ofSingle_of_decode {bits : UInt32} {d : Datum}
    (hdecode : single.decode bits.toNat = d)
    (hnumber : ∀ negative payload, d ≠ .nan negative payload) :
    ofSingle bits = ofDatum d := by
  unfold ofSingle
  rw [hdecode]
  cases d with
  | finite => rfl
  | infinite => rfl
  | nan negative payload => exact absurd rfl (hnumber negative payload)

private theorem toSingle_of_datum {x : Binary64} {d : Datum} (hdatum : x.datum = d)
    (hnumber : ∀ negative payload, d ≠ .nan negative payload) :
    x.toSingle = UInt32.ofNat (single.encode d) := by
  unfold toSingle
  rw [hdatum]
  cases d with
  | finite => rfl
  | infinite => rfl
  | nan negative payload => exact absurd rfl (hnumber negative payload)

private theorem isNaN_ofSingle {bits : UInt32} {negative : Bool} {payload : Nat}
    (h : single.decode bits.toNat = .nan negative payload) : (ofSingle bits).isNaN = true := by
  obtain ⟨other, hother⟩ : ∃ other, ofSingle bits = ofDatum (.nan negative other) := by
    refine ⟨payload * Nat.pow 2 29 / Nat.pow 2 0, ?_⟩
    unfold ofSingle
    rw [h]
    rfl
  have hquiet := double.quiet_lt other
  have hinfinity := infinity_add_lt hquiet
  have hsign := double.signBits_le negative
  have hencode : double.encode (.nan negative other) = double.signBits negative +
      (double.infinity + (other % double.hiddenBit ||| double.hiddenBit / 2)) := Nat.add_assoc _ _ _
  rw [isNaN_eq_true_iff, hother, datum_ofDatum hencode (by omega),
    decode_nan hquiet (quiet_ne_zero (by decide) other)]
  exact ⟨_, _, rfl⟩

/-- 32 bits that stand for a number are found again after widening and narrowing. -/
theorem toSingle_ofSingle {bits : UInt32} (h : (ofSingle bits).isNaN = false) :
    (ofSingle bits).toSingle = bits := by
  have hword : bits.toNat < 2 * single.signWeight := bits.toNat_lt
  rcases bits_cases hword with ⟨negative, steps, significand, hholds, hlt, hbits⟩ |
    ⟨negative, hbits⟩ | ⟨negative, payload, hlt, hne, hbits⟩
  · obtain ⟨more, digits, hdouble, hdoubleLt, hvalue⟩ := exists_double hholds hlt
    have hsign := double.signBits_le negative
    have hinfinity := infinity_add_lt double.hiddenBit_pos
    have hsingle := ofSingle_of_decode (hbits ▸ decode_finite hholds hlt negative) (by simp)
    have hdatum := datum_ofDatum (encode_exact hdouble hdoubleLt hvalue.symm negative) (by omega)
    rw [decode_finite hdouble hdoubleLt] at hdatum
    rw [hsingle, toSingle_of_datum hdatum (by simp), encode_exact hholds hlt hvalue, ← hbits]
    exact UInt32.ofNat_toNat
  · have hsign := double.signBits_le negative
    have hinfinity := infinity_add_lt double.hiddenBit_pos
    have hsingle := ofSingle_of_decode (hbits ▸ decode_infinite negative) (by simp)
    have hencode : double.encode (.infinite negative) =
        double.signBits negative + double.infinity := rfl
    have hdatum := datum_ofDatum hencode (by omega)
    rw [decode_infinite] at hdatum
    rw [hsingle, toSingle_of_datum hdatum (by simp)]
    change UInt32.ofNat (single.signBits negative + single.infinity) = bits
    rw [← hbits]
    exact UInt32.ofNat_toNat
  · rw [isNaN_ofSingle (hbits ▸ decode_nan hlt hne negative)] at h
    contradiction

theorem isNaN_ofSingle_toSingle {x : Binary64} (h : x.isNaN = true) :
    (ofSingle x.toSingle).isNaN = true := by
  obtain ⟨negative, payload, hdatum⟩ := isNaN_eq_true_iff.mp h
  obtain ⟨other, hother⟩ : ∃ other,
      x.toSingle = UInt32.ofNat (single.encode (.nan negative other)) := by
    refine ⟨payload * Nat.pow 2 0 / Nat.pow 2 29, ?_⟩
    unfold toSingle
    rw [hdatum]
    rfl
  have hquiet := single.quiet_lt other
  have hinfinity := infinity_add_lt hquiet
  have hsign := single.signBits_le negative
  have hencode : single.encode (.nan negative other) = single.signBits negative +
      (single.infinity + (other % single.hiddenBit ||| single.hiddenBit / 2)) := Nat.add_assoc _ _ _
  have hword : single.encode (.nan negative other) < UInt32.size := by
    have hsize : UInt32.size = 2 * single.signWeight := rfl
    omega
  have hdecode := decode_nan hquiet (quiet_ne_zero (by decide) other) negative
  rw [← hencode, ← UInt32.toNat_ofNat_of_lt' hword] at hdecode
  rw [hother]
  exact isNaN_ofSingle hdecode

end Binary64

end BinarySchema
