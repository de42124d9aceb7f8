import BinarySchema.Proofs.Buffer
import BinarySchema.Proofs.Layout.Reach
import BinarySchema.Proofs.Number.Exact
import BinarySchema.Value.Write

/-!
# Scalar codecs

Encoding undoes decoding on every word that is no NaN, and decoding restores from an encoded scalar
what its encoding keeps of it.  The codec of a type is as wide as the type.
-/

namespace BinarySchema

/-! ## Words -/

theorem wordOfBytes_lt (bytes : List UInt8) : wordOfBytes bytes < 256 ^ bytes.length := by
  induction bytes with
  | nil => simp [wordOfBytes]
  | cons byte rest ih =>
      have hbyte : byte.toNat < 256 := byte.toNat_lt
      simp only [wordOfBytes, List.length_cons, Nat.pow_succ]
      omega

namespace Encoding

private theorem two_pow_bits (width : IntegerWidth) :
    2 ^ width.bits = 2 * 2 ^ (width.bits - 1) := by
  cases width <;> rfl

private theorem two_pow_bits_le (width : IntegerWidth) : 2 ^ width.bits ≤ UInt64.size := by
  cases width <;> decide

private theorem pow_width (width : IntegerWidth) : 256 ^ width.bytes = 2 ^ width.bits := by
  cases width <;> rfl

theorem signedOfWord_bounds {bits word : Nat} (hbits : 2 ^ bits = 2 * 2 ^ (bits - 1))
    (hword : word < 2 ^ bits) :
    -(2 ^ (bits - 1) : Int) ≤ signedOfWord bits word ∧
      signedOfWord bits word < (2 ^ (bits - 1) : Int) := by
  have hhalf : ((2 ^ (bits - 1) : Nat) : Int) = 2 ^ (bits - 1) := by push_cast; rfl
  unfold signedOfWord
  simp only [Nat.pow_eq]
  split <;> omega

private theorem signedOfWord_emod {bits word : Nat} (hword : word < 2 ^ bits) :
    (signedOfWord bits word % (2 ^ bits : Nat)).toNat = word := by
  unfold signedOfWord
  simp only [Nat.pow_eq]
  split
  · rw [Int.emod_eq_of_lt (by omega) (by omega), Int.toNat_natCast]
  · rw [Int.sub_emod_right, Int.emod_eq_of_lt (by omega) (by omega), Int.toNat_natCast]

private theorem signedOfWord_toNat_emod {bits : Nat} {value : Int}
    (hbits : 2 ^ bits = 2 * 2 ^ (bits - 1)) (hlow : -(2 ^ (bits - 1) : Nat) ≤ value)
    (hhigh : value < (2 ^ (bits - 1) : Nat)) :
    signedOfWord bits (value % (2 ^ bits : Nat)).toNat = value := by
  unfold signedOfWord
  simp only [Nat.pow_eq]
  rcases lt_or_ge value 0 with hneg | hnonneg
  · have hmod : value % (2 ^ bits : Nat) = value + (2 ^ bits : Nat) := by
      rw [← Int.add_emod_right]
      exact Int.emod_eq_of_lt (by omega) (by omega)
    rw [hmod, if_neg (by omega)]
    omega
  · rw [Int.emod_eq_of_lt hnonneg (by omega), if_pos (by omega)]
    omega

/-- Encoding undoes decoding, NaNs apart. -/
theorem encode_decode {encoding : Encoding} {word : Nat} (hword : word < 256 ^ encoding.width)
    (hnumber : ∀ x, encoding.decode word = .float x → x.isNaN = false) :
    encoding.encode? (encoding.decode word) = some word := by
  cases encoding with
  | signed width =>
      have hlt : word < 2 ^ width.bits := pow_width width ▸ hword
      have hdouble := two_pow_bits width
      have hsize := two_pow_bits_le width
      obtain ⟨hlow, hhigh⟩ := signedOfWord_bounds hdouble hlt
      have hhalf : (2 : Int) ^ (width.bits - 1) ≤ 2 ^ 63 := by cases width <;> decide
      have hint : (Int64.ofInt (signedOfWord width.bits word)).toInt =
          signedOfWord width.bits word :=
        Int64.toInt_ofInt_of_le (by omega) (by omega)
      have hfits : fitsSigned width.bits (signedOfWord width.bits word) = true := by
        simp only [fitsSigned, Nat.pow_eq, Bool.and_eq_true, decide_eq_true_eq]
        push_cast
        exact ⟨hlow, hhigh⟩
      simp only [decode, encode?, Scalar.integer?, hint, hfits, if_true]
      exact congrArg some (signedOfWord_emod hlt)
  | unsigned width =>
      have hlt : word < 2 ^ width.bits := pow_width width ▸ hword
      have hnat : (UInt64.ofNat word).toNat = word :=
        UInt64.toNat_ofNat_of_lt' (Nat.lt_of_lt_of_le hlt (two_pow_bits_le width))
      have hfits : fitsUnsigned width.bits (word : Nat) = true := by
        simp only [fitsUnsigned, Nat.pow_eq, Bool.and_eq_true, decide_eq_true_eq]
        omega
      simp only [decode, encode?, Scalar.integer?, hnat, hfits, if_true, Int.toNat_natCast]
  | single =>
      have hsize : word < UInt32.size := hword
      have hnarrow := Binary64.toSingle_ofSingle (hnumber _ rfl)
      simp only [decode, encode?, Scalar.toBinary64, hnarrow]
      rw [UInt32.toNat_ofNat_of_lt' hsize]
  | double =>
      have hsize : word < UInt64.size := hword
      simp only [decode, encode?, Scalar.toBinary64]
      rw [UInt64.toNat_ofNat_of_lt' hsize]

theorem encode_lt {encoding : Encoding} {scalar : Scalar} {word : Nat}
    (h : encoding.encode? scalar = some word) : word < 256 ^ encoding.width := by
  cases encoding with
  | signed width =>
      simp only [encode?] at h
      split at h
      · split at h
        · cases h
          have hpos : (0 : Int) < (Nat.pow 2 width.bits : Nat) := by
            exact_mod_cast Nat.pow_pos (by decide)
          have hmod := Int.emod_lt_of_pos ‹Int› hpos
          have hnonneg := Int.emod_nonneg ‹Int› hpos.ne'
          rw [Encoding.width, pow_width]
          simp only [Nat.pow_eq] at hmod hnonneg ⊢
          omega
        · contradiction
      · contradiction
  | unsigned width =>
      simp only [encode?] at h
      split at h
      · split at h
        · rename_i hfits
          cases h
          simp only [fitsUnsigned, Nat.pow_eq, Bool.and_eq_true, decide_eq_true_eq] at hfits
          rw [Encoding.width, pow_width]
          omega
        · contradiction
      · contradiction
  | single =>
      cases h
      exact scalar.toBinary64.toSingle.toNat_lt
  | double =>
      cases h
      exact scalar.toBinary64.bits.toNat_lt

/-- What comes back for a scalar that was stored: the same whole number in the form of the encoding,
the same 64 bits of a float, or the float that its nearest 32-bit number stands for, a NaN being one
still. -/
def Restores (stored : Scalar) : Encoding → Scalar → Prop
  | .signed _, read => ∃ value : Int64, read = .int value ∧ stored.integer? = some value.toInt
  | .unsigned _, read =>
      ∃ value : UInt64, read = .uint value ∧ stored.integer? = some (value.toNat : Int)
  | .single, read =>
      read = .float (.ofSingle stored.toBinary64.toSingle) ∧
        (stored.toBinary64.isNaN = true →
          (Binary64.ofSingle stored.toBinary64.toSingle).isNaN = true)
  | .double, read => read = .float stored.toBinary64

theorem restores_decode {encoding : Encoding} {scalar : Scalar} {word : Nat}
    (h : encoding.encode? scalar = some word) :
    encoding.Restores scalar (encoding.decode word) := by
  cases encoding with
  | signed width =>
      simp only [encode?] at h
      split at h
      · rename_i value hvalue
        split at h
        · rename_i hfits
          cases h
          simp only [fitsSigned, Nat.pow_eq, Bool.and_eq_true, decide_eq_true_eq] at hfits
          have hword := signedOfWord_toNat_emod (two_pow_bits width) hfits.1 hfits.2
          have hhalf : 2 ^ (width.bits - 1) ≤ 2 ^ 63 := by cases width <;> decide
          refine ⟨Int64.ofInt value, ?_, ?_⟩
          · simp only [decode, Nat.pow_eq, hword]
          · rw [hvalue, Int64.toInt_ofInt_of_le (by omega) (by omega)]
        · contradiction
      · contradiction
  | unsigned width =>
      simp only [encode?] at h
      split at h
      · rename_i value hvalue
        split at h
        · rename_i hfits
          cases h
          simp only [fitsUnsigned, Nat.pow_eq, Bool.and_eq_true, decide_eq_true_eq] at hfits
          have hsize := two_pow_bits_le width
          refine ⟨UInt64.ofNat value.toNat, rfl, ?_⟩
          rw [hvalue, UInt64.toNat_ofNat_of_lt' (by omega), Int.toNat_of_nonneg hfits.1]
        · contradiction
      · contradiction
  | single =>
      cases h
      refine ⟨?_, Binary64.isNaN_ofSingle_toSingle⟩
      simp only [decode, UInt32.ofNat_toNat]
  | double =>
      cases h
      simp only [Restores, decode, UInt64.ofNat_toNat]

end Encoding

/-! ## Scalars in buffers -/

@[simp] theorem ByteOrder.length_arrange (order : ByteOrder) (bytes : List UInt8) :
    (order.arrange bytes).length = bytes.length := by
  cases order <;> simp [arrange]

@[simp] theorem ByteOrder.arrange_arrange (order : ByteOrder) (bytes : List UInt8) :
    order.arrange (order.arrange bytes) = bytes := by
  cases order <;> simp [arrange]

namespace ScalarCodec

variable {codec : ScalarCodec} {buffer written : Buffer} {start : UInt64} {scalar : Scalar}
  {typeName : String}

theorem fits_iff : codec.fits buffer start = true ↔ start.toNat + codec.width ≤ buffer.size := by
  simp [fits]

/-- The word at a place in a buffer. -/
def wordAt (codec : ScalarCodec) (buffer : Buffer) (start : UInt64) : Nat :=
  wordOfBytes (codec.order.arrange (buffer.slice start.toNat codec.width))

def bytesOf (codec : ScalarCodec) (word : Nat) : List UInt8 :=
  codec.order.arrange (bytesOfWord codec.width word)

@[simp] theorem length_bytesOf (word : Nat) : (codec.bytesOf word).length = codec.width := by
  simp [bytesOf]

theorem read_eq_ok_iff :
    codec.read buffer start = .ok scalar ↔
      codec.fits buffer start = true ∧
        scalar = codec.encoding.decode (codec.wordAt buffer start) := by
  unfold read
  split
  · rename_i hfits
    simp only [Except.ok.injEq, hfits, true_and, wordAt, eq_comm]
  · rename_i hshort
    simp [hshort]

theorem write_of_fits (hfits : codec.fits buffer start = true) :
    codec.write buffer start scalar typeName =
      match codec.encoding.encode? scalar with
      | some word => .ok (buffer.overwrite start.toNat (codec.bytesOf word))
      | none => .error (.valueOutOfRange typeName scalar) :=
  if_pos hfits

theorem write_eq_ok_iff :
    codec.write buffer start scalar typeName = .ok written ↔
      codec.fits buffer start = true ∧ ∃ word, codec.encoding.encode? scalar = some word ∧
        written = buffer.overwrite start.toNat (codec.bytesOf word) := by
  unfold write
  split
  · rename_i hfits
    split
    · rename_i word hword
      simp only [Except.ok.injEq, hfits, hword, true_and, Option.some.injEq, exists_eq_left',
        bytesOf, eq_comm]
    · rename_i hnone
      simp [hnone]
  · rename_i hshort
    simp [hshort]

theorem wordAt_lt (hfits : codec.fits buffer start = true) :
    codec.wordAt buffer start < 256 ^ codec.width := by
  have hlength := Buffer.length_slice (fits_iff.mp hfits)
  have hlt := wordOfBytes_lt (codec.order.arrange (buffer.slice start.toNat codec.width))
  rwa [ByteOrder.length_arrange, hlength] at hlt

/-- The bytes of the word at a place are the bytes there. -/
theorem bytesOf_wordAt (hfits : codec.fits buffer start = true) :
    codec.bytesOf (codec.wordAt buffer start) = buffer.slice start.toNat codec.width := by
  have hbytes := bytesOfWord_wordOfBytes
    (codec.order.arrange (buffer.slice start.toNat codec.width))
  rw [ByteOrder.length_arrange, Buffer.length_slice (fits_iff.mp hfits)] at hbytes
  rw [bytesOf, wordAt, hbytes, ByteOrder.arrange_arrange]

theorem wordAt_of_slice {word : Nat} (hword : word < 256 ^ codec.width)
    (hslice : buffer.slice start.toNat codec.width = codec.bytesOf word) :
    codec.wordAt buffer start = word := by
  rw [wordAt, hslice, bytesOf, ByteOrder.arrange_arrange, wordOfBytes_bytesOfWord]
  exact Nat.mod_eq_of_lt hword

/-- A place that was overwritten holds the bytes of the word. -/
theorem slice_overwrite_bytesOf (hfits : codec.fits buffer start = true) (word : Nat) :
    codec.fits (buffer.overwrite start.toNat (codec.bytesOf word)) start = true ∧
      (buffer.overwrite start.toNat (codec.bytesOf word)).slice start.toNat codec.width =
        codec.bytesOf word := by
  have hroom : start.toNat + (codec.bytesOf word).length ≤ buffer.size := by
    rw [length_bytesOf]
    exact fits_iff.mp hfits
  have hslice := Buffer.slice_overwrite hroom
  rw [length_bytesOf] at hslice
  refine ⟨?_, hslice⟩
  rw [fits_iff, Buffer.size_overwrite]
  exact fits_iff.mp hfits

end ScalarCodec

/-! ## Widths -/

private theorem bytes_of_integerWidth {size : UInt64} {width : IntegerWidth}
    (h : Encoding.integerWidth? size = some width) : width.bytes = size.toNat := by
  unfold Encoding.integerWidth? at h
  repeat' split at h
  all_goals first | contradiction | skip
  all_goals
    rename_i hsize
    cases h
    rw [hsize]
    rfl

theorem Encoding.width_of_select {representation : Representation} {size : UInt64}
    {encoding : Encoding} (h : select? representation size = some encoding) :
    encoding.width = size.toNat := by
  cases representation with
  | integer =>
      obtain ⟨width, hwidth, rfl⟩ := Option.map_eq_some_iff.mp h
      exact bytes_of_integerWidth hwidth
  | unsigned =>
      obtain ⟨width, hwidth, rfl⟩ := Option.map_eq_some_iff.mp h
      exact bytes_of_integerWidth hwidth
  | floating =>
      simp only [select?] at h
      repeat' split at h
      all_goals first | contradiction | skip
      all_goals
        rename_i hsize
        cases h
        rw [hsize]
        rfl

/-- The encodings of whole numbers are the signed and the unsigned ones. -/
theorem Encoding.whole_cases {representation : Representation} {size : UInt64}
    {encoding : Encoding} (hselect : select? representation size = some encoding)
    (hwhole : representation ≠ .floating) :
    (representation = .integer ∧ ∃ width, encoding = .signed width) ∨
      (representation = .unsigned ∧ ∃ width, encoding = .unsigned width) := by
  cases representation with
  | integer =>
      obtain ⟨width, -, rfl⟩ := Option.map_eq_some_iff.mp hselect
      exact .inl ⟨rfl, width, rfl⟩
  | unsigned =>
      obtain ⟨width, -, rfl⟩ := Option.map_eq_some_iff.mp hselect
      exact .inr ⟨rfl, width, rfl⟩
  | floating => contradiction

namespace ScalarCodec

variable {representation : Representation} {size : UInt64} {order : ByteOrder} {codec : ScalarCodec}

theorem encoding_of_select (hselect : select? representation size order = some codec) :
    Encoding.select? representation size = some codec.encoding := by
  obtain ⟨encoding, hencoding, rfl⟩ := Option.map_eq_some_iff.mp hselect
  exact hencoding

theorem width_of_select (hselect : select? representation size order = some codec) :
    codec.width = size.toNat :=
  Encoding.width_of_select (encoding_of_select hselect)

end ScalarCodec

namespace Context

variable {context : Context} {record : TypeRecord} {codec : ScalarCodec}

/-- The codec of a type is as wide as the type. -/
theorem width_of_scalarCodec (hcodec : context.scalarCodec record = .ok codec) {budget : Nat}
    {size : UInt64} (hsize : context.sizeWithin (budget + 1) record = .ok size) :
    codec.width = size.toNat := by
  unfold scalarCodec at hcodec
  split at hcodec
  · contradiction
  · split at hcodec
    · contradiction
    · rename_i declared hdeclared
      simp only at hcodec
      split at hcodec
      · rename_i selected hselect
        cases hcodec
        obtain ⟨encoding, hencoding, rfl⟩ := Option.map_eq_some_iff.mp hselect
        have hwidth := Encoding.width_of_select hencoding
        cases declared with
        | bytes count =>
            simp only [sizeWithin, hdeclared, Except.ok.injEq] at hsize
            exact hsize ▸ hwidth
        | native =>
            simp only [sizeWithin, hdeclared, Except.ok.injEq] at hsize
            exact hsize ▸ hwidth
      · contradiction

end Context

theorem TypeRecord.Same.scalarCodec_eq {context : Context} {a b : TypeRecord} (h : a.Same b) :
    context.scalarCodec a = context.scalarCodec b := by
  obtain ⟨value, rfl⟩ := h.exists_value
  rfl

end BinarySchema
