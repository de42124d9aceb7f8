import BinarySchema.Proofs.Codec

/-!
# Access to buffers

What every scalar codec does to a buffer: it stays within the bytes of its width, refuses buffers
that are too short and no others for that reason, and reads back what it wrote and writes back what
it read.  The two byte orders differ by reversing the bytes.
-/

namespace BinarySchema.ScalarCodec

variable {representation : Representation} {size : UInt64} {order : ByteOrder}
  {codec : ScalarCodec} {buffer written : Buffer} {start : UInt64} {scalar : Scalar}
  {typeName : String}

/-! ## Failures -/

theorem fits_iff_of_select (hselect : select? representation size order = some codec) :
    codec.fits buffer start = true ↔ start.toNat + size.toNat ≤ buffer.size := by
  rw [fits_iff, width_of_select hselect]

private theorem shortage_of_select (hselect : select? representation size order = some codec) :
    codec.shortage buffer start = .bufferTooSmall start size buffer.size := by
  rw [shortage, width_of_select hselect, UInt64.ofNat_toNat]

private theorem read_eq_error_iff (hselect : select? representation size order = some codec)
    {failure : Error} :
    codec.read buffer start = .error failure ↔
      buffer.size < start.toNat + size.toNat ∧
        failure = .bufferTooSmall start size buffer.size := by
  rw [← Nat.not_le, ← fits_iff_of_select hselect, ← shortage_of_select hselect]
  unfold read
  split
  · rename_i hfits
    simp [hfits]
  · rename_i hshort
    simp [hshort, eq_comm]

private theorem write_eq_error_iff (hselect : select? representation size order = some codec)
    {failure : Error} :
    codec.write buffer start scalar typeName = .error failure ↔
      (buffer.size < start.toNat + size.toNat ∧
          failure = .bufferTooSmall start size buffer.size) ∨
        (start.toNat + size.toNat ≤ buffer.size ∧ codec.encoding.encode? scalar = none ∧
          failure = .valueOutOfRange typeName scalar) := by
  rw [← Nat.not_le, ← fits_iff_of_select hselect, ← shortage_of_select hselect]
  unfold write
  split
  · rename_i hfits
    cases codec.encoding.encode? scalar <;> simp [hfits, eq_comm]
  · rename_i hshort
    simp [hshort, eq_comm]

private theorem left_writeScalar {context : Context} {record : TypeRecord} {failure : Error}
    (h : (Value.writeScalar context record start scalar buffer).outcome = .error failure) :
    (Value.writeScalar context record start scalar buffer).left = buffer := by
  unfold Value.writeScalar at h ⊢
  cases hcodec : context.scalarCodec record with
  | error => rfl
  | ok codec =>
      simp only [hcodec] at h ⊢
      cases hwrite : codec.write buffer start scalar record.name with
      | error => rfl
      | ok after =>
          rw [hwrite] at h
          contradiction

/-! ## Bytes elsewhere -/

private theorem getElem?_of_write (hselect : select? representation size order = some codec)
    (h : codec.write buffer start scalar typeName = .ok written) (index : Nat)
    (houtside : index < start.toNat ∨ start.toNat + size.toNat ≤ index) :
    written[index]? = buffer[index]? := by
  obtain ⟨hfits, word, -, rfl⟩ := write_eq_ok_iff.mp h
  have hwidth := width_of_select hselect
  have hlength : (codec.bytesOf word).length = size.toNat := (length_bytesOf word).trans hwidth
  have hroom := fits_iff.mp hfits
  rw [Buffer.getElem?_overwrite (by omega), if_neg (by omega)]

/-! ## Reading what was written, and the other way round -/

theorem restores_of_write (h : codec.write buffer start scalar typeName = .ok written) :
    ∃ back, codec.read written start = .ok back ∧ codec.encoding.Restores scalar back := by
  obtain ⟨hfits, word, hword, rfl⟩ := write_eq_ok_iff.mp h
  obtain ⟨hagain, hslice⟩ := slice_overwrite_bytesOf hfits word
  refine ⟨_, read_eq_ok_iff.mpr ⟨hagain, rfl⟩, ?_⟩
  rw [wordAt_of_slice (Encoding.encode_lt hword) hslice]
  exact Encoding.restores_decode hword

/-- What was read is written back to the same bytes, NaNs apart. -/
theorem write_eq_of_read (h : codec.read buffer start = .ok scalar)
    (hnumber : ∀ x, scalar = .float x → x.isNaN = false) :
    codec.write buffer start scalar typeName = .ok buffer := by
  obtain ⟨hfits, rfl⟩ := read_eq_ok_iff.mp h
  have hword := Encoding.encode_decode (wordAt_lt hfits) hnumber
  refine write_eq_ok_iff.mpr ⟨hfits, _, hword, ?_⟩
  rw [bytesOf_wordAt hfits, Buffer.overwrite_slice (fits_iff.mp hfits)]

private theorem integer?_eq_of_restores {encoding : Encoding} {back : Scalar}
    (hselect : Encoding.select? representation size = some encoding)
    (hwhole : representation ≠ .floating) (h : encoding.Restores scalar back) :
    ∃ whole, back.integer? = some whole ∧ scalar.integer? = some whole := by
  rcases Encoding.whole_cases hselect hwhole with ⟨-, width, rfl⟩ | ⟨-, width, rfl⟩
  · obtain ⟨value, rfl, hvalue⟩ := h
    exact ⟨_, rfl, hvalue⟩
  · obtain ⟨value, rfl, hvalue⟩ := h
    exact ⟨_, rfl, hvalue⟩

private theorem not_float_of_read (hselect : select? representation size order = some codec)
    (hwhole : representation ≠ .floating) (h : codec.read buffer start = .ok scalar)
    (x : Binary64) : scalar ≠ .float x := by
  obtain ⟨-, rfl⟩ := read_eq_ok_iff.mp h
  rcases Encoding.whole_cases (encoding_of_select hselect) hwhole with
    ⟨-, width, hwidth⟩ | ⟨-, width, hwidth⟩ <;> simp [hwidth, Encoding.decode]

private theorem exists_write_double {codec : ScalarCodec} (hdouble : codec.encoding = .double)
    (x : Binary64) (hfits : codec.fits buffer start = true) :
    ∃ written, codec.write buffer start (.float x) typeName = .ok written ∧
      codec.read written start = .ok (.float x) := by
  have hword : codec.encoding.encode? (.float x) = some x.bits.toNat := by rw [hdouble]; rfl
  have hwrite : codec.write buffer start (.float x) typeName =
      .ok (buffer.overwrite start.toNat (codec.bytesOf x.bits.toNat)) :=
    write_eq_ok_iff.mpr ⟨hfits, _, hword, rfl⟩
  obtain ⟨back, hback, hrestores⟩ := restores_of_write hwrite
  rw [hdouble] at hrestores
  exact ⟨_, hwrite, hrestores ▸ hback⟩

/-! ## Byte orders -/

private theorem wordAt_reverseRange {encoding : Encoding}
    (hfits : start.toNat + encoding.width ≤ buffer.size) :
    wordAt ⟨encoding, .big⟩ (buffer.reverseRange start.toNat encoding.width) start =
      wordAt ⟨encoding, .little⟩ buffer start := by
  simp only [wordAt, ScalarCodec.width, Buffer.slice_reverseRange hfits, ByteOrder.arrange,
    List.reverse_reverse]

private theorem read_reverseRange (encoding : Encoding) (buffer : Buffer) (start : UInt64) :
    read ⟨encoding, .big⟩ (buffer.reverseRange start.toNat encoding.width) start =
      read ⟨encoding, .little⟩ buffer start := by
  have hbig := @fits_iff ⟨encoding, .big⟩ (buffer.reverseRange start.toNat encoding.width) start
  have hlittle := @fits_iff ⟨encoding, .little⟩ buffer start
  rw [Buffer.size_reverseRange] at hbig
  by_cases hroom : start.toNat + encoding.width ≤ buffer.size
  · rw [read_eq_ok_iff.mpr ⟨hbig.mpr hroom, rfl⟩, wordAt_reverseRange hroom]
    exact (read_eq_ok_iff.mpr ⟨hlittle.mpr hroom, rfl⟩).symm
  · rw [read, read, if_neg (mt hbig.mp hroom), if_neg (mt hlittle.mp hroom), shortage, shortage,
      Buffer.size_reverseRange]
    rfl

/-! ## All of it -/

/-- How a codec of a representation in `size` bytes goes about buffers. -/
structure Accesses (representation : Representation) (size : UInt64) (codec : ScalarCodec) :
    Prop where
  /-- Behind the check there are as many bytes to read as the encoding takes. -/
  bytes_read : ∀ {buffer : Buffer} {start : UInt64}, codec.fits buffer start = true →
    (buffer.slice start.toNat codec.width).length = size.toNat
  bytes_written : ∀ word, (codec.bytesOf word).length = size.toNat
  read_error : ∀ {buffer start failure}, codec.read buffer start = .error failure ↔
    buffer.size < start.toNat + size.toNat ∧ failure = .bufferTooSmall start size buffer.size
  write_error : ∀ {buffer start scalar typeName failure},
    codec.write buffer start scalar typeName = .error failure ↔
      (buffer.size < start.toNat + size.toNat ∧
          failure = .bufferTooSmall start size buffer.size) ∨
        (start.toNat + size.toNat ≤ buffer.size ∧ codec.encoding.encode? scalar = none ∧
          failure = .valueOutOfRange typeName scalar)
  /-- A write that fails leaves its buffer as it was. -/
  write_failed : ∀ {context : Context} {record : TypeRecord},
    context.scalarCodec record = .ok codec → ∀ {buffer start scalar failure},
      (Value.writeScalar context record start scalar buffer).outcome = .error failure →
        (Value.writeScalar context record start scalar buffer).left = buffer
  write_elsewhere : ∀ {buffer start scalar typeName written},
    codec.write buffer start scalar typeName = .ok written → written.size = buffer.size ∧
      ∀ index, index < start.toNat ∨ start.toNat + size.toNat ≤ index →
        written[index]? = buffer[index]?
  read_written : representation ≠ .floating → ∀ {buffer start scalar typeName written},
    codec.write buffer start scalar typeName = .ok written →
      ∃ back whole, codec.read written start = .ok back ∧ back.integer? = some whole ∧
        scalar.integer? = some whole
  write_read : representation ≠ .floating → ∀ {buffer start scalar} typeName,
    codec.read buffer start = .ok scalar → codec.write buffer start scalar typeName = .ok buffer
  read_written_double : representation = .floating → size = 8 →
    ∀ {buffer start} typeName (x : Binary64), start.toNat + size.toNat ≤ buffer.size →
      ∃ written, codec.write buffer start (.float x) typeName = .ok written ∧
        codec.read written start = .ok (.float x)
  write_read_double : representation = .floating → size = 8 →
    ∀ {buffer start} typeName {x : Binary64}, x.isNaN = false →
      codec.read buffer start = .ok (.float x) →
        codec.write buffer start (.float x) typeName = .ok buffer
  read_reversed : ∀ {little big : ScalarCodec}, select? representation size .little = some little →
    select? representation size .big = some big → ∀ (buffer : Buffer) (start : UInt64),
      big.read (buffer.reverseRange start.toNat size.toNat) start = little.read buffer start

/-- Every codec that is selected accesses buffers in this way, at every position up to the last one
of 64 bits. -/
theorem accesses_of_select (hselect : select? representation size order = some codec) :
    codec.Accesses representation size where
  bytes_read hfits := by rw [Buffer.length_slice (fits_iff.mp hfits), width_of_select hselect]
  bytes_written word := by rw [length_bytesOf, width_of_select hselect]
  read_error := read_eq_error_iff hselect
  write_error := write_eq_error_iff hselect
  write_failed _ _ _ _ _ h := left_writeScalar h
  write_elsewhere h := by
    refine ⟨?_, getElem?_of_write hselect h⟩
    obtain ⟨-, word, -, rfl⟩ := write_eq_ok_iff.mp h
    exact Buffer.size_overwrite ..
  read_written hwhole _ _ _ _ _ h := by
    obtain ⟨back, hback, hrestores⟩ := restores_of_write h
    obtain ⟨whole, hwhole⟩ :=
      integer?_eq_of_restores (encoding_of_select hselect) hwhole hrestores
    exact ⟨back, whole, hback, hwhole⟩
  write_read hwhole _ _ _ _ h :=
    write_eq_of_read h fun x hx => absurd hx (not_float_of_read hselect hwhole h x)
  read_written_double hfloating hsize _ _ _ x hroom := by
    subst hfloating hsize
    have hdouble : codec.encoding = .double := (Option.some.inj (encoding_of_select hselect)).symm
    exact exists_write_double hdouble x ((fits_iff_of_select hselect).mpr hroom)
  write_read_double _ _ _ _ _ x hnumber h :=
    write_eq_of_read h fun y hy => by
      cases hy
      exact hnumber
  read_reversed hlittle hbig buffer start := by
    obtain ⟨encoding, hencoding, rfl⟩ := Option.map_eq_some_iff.mp hlittle
    obtain ⟨other, hother, rfl⟩ := Option.map_eq_some_iff.mp hbig
    cases hencoding.symm.trans hother
    rw [← Encoding.width_of_select hencoding]
    exact read_reverseRange encoding buffer start

theorem accesses_two_bytes :
    let codec : ScalarCodec := ⟨.signed .two, .big⟩
    select? .integer 2 .big = some codec ∧ codec.Accesses .integer 2 ∧
      codec.read #[7, 255, 254] 1 = .ok (.int (-2)) :=
  ⟨rfl, accesses_of_select rfl, rfl⟩

end BinarySchema.ScalarCodec
