import BinarySchema.Buffer

/-!
# Bytes of buffers

What a slice and an overwritten buffer hold at each index.
-/

namespace BinarySchema.Buffer

variable {buffer : Buffer} {start : Nat}

theorem getElem?_slice (buffer : Buffer) (start count index : Nat) :
    (buffer.slice start count)[index]? =
      if index < count then buffer[start + index]? else none := by
  simp only [slice, Array.getElem?_toList, Array.getElem?_extract]
  split <;> split <;> first | rfl | omega | skip
  rename_i hcount hsize
  exact (Array.getElem?_eq_none (by omega)).symm

/-- Behind a front the bytes are those of the rest. -/
theorem slice_append (front buffer : Buffer) (start count : Nat) :
    Buffer.slice (front ++ buffer) (start + front.size) count = buffer.slice start count := by
  apply List.ext_getElem?
  intro index
  rw [getElem?_slice, getElem?_slice, Array.getElem?_append_right (by omega)]
  congr 2
  omega

theorem length_slice {count : Nat} (hfits : start + count ≤ buffer.size) :
    (buffer.slice start count).length = count := by
  simp only [slice, Array.length_toList, Array.size_extract]
  omega

/-- Overwriting changes the bytes in its range and no others. -/
theorem getElem?_overwrite {bytes : List UInt8} (hfits : start + bytes.length ≤ buffer.size)
    (index : Nat) :
    (buffer.overwrite start bytes)[index]? =
      if start ≤ index ∧ index < start + bytes.length then bytes[index - start]?
      else buffer[index]? := by
  induction bytes generalizing buffer start with
  | nil =>
      rw [overwrite, if_neg]
      rw [List.length_nil]
      omega
  | cons byte rest ih =>
      simp only [List.length_cons] at hfits ⊢
      rw [overwrite, ih (by rw [Array.size_setIfInBounds]; omega),
        Array.getElem?_setIfInBounds]
      by_cases heq : start = index
      · subst heq
        have hsize : start < buffer.size := by omega
        rw [if_neg (by omega), if_pos rfl, if_pos hsize, if_pos (by omega), Nat.sub_self,
          List.getElem?_cons_zero]
      · by_cases hin : start + 1 ≤ index ∧ index < start + 1 + rest.length
        · have hsub : index - start = index - (start + 1) + 1 := by omega
          rw [if_pos hin, if_pos (by omega), hsub, List.getElem?_cons_succ]
        · rw [if_neg hin, if_neg heq, if_neg (by omega)]

theorem slice_overwrite {bytes : List UInt8} (hfits : start + bytes.length ≤ buffer.size) :
    (buffer.overwrite start bytes).slice start bytes.length = bytes := by
  apply List.ext_getElem?
  intro index
  rw [getElem?_slice, getElem?_overwrite hfits]
  split
  · rw [if_pos (by omega), Nat.add_sub_cancel_left]
  · exact (List.getElem?_eq_none (by omega)).symm

theorem overwrite_slice {count : Nat} (hfits : start + count ≤ buffer.size) :
    buffer.overwrite start (buffer.slice start count) = buffer := by
  have hlength := length_slice hfits
  refine Array.ext_getElem? fun index => ?_
  rw [getElem?_overwrite (by omega), hlength]
  split
  · rw [getElem?_slice, if_pos (by omega), Nat.add_sub_cancel' (by omega)]
  · rfl

theorem slice_overwrite_of_disjoint {bytes : List UInt8} {other count : Nat}
    (hfits : start + bytes.length ≤ buffer.size)
    (hdisjoint : other + count ≤ start ∨ start + bytes.length ≤ other) :
    (buffer.overwrite start bytes).slice other count = buffer.slice other count := by
  apply List.ext_getElem?
  intro index
  rw [getElem?_slice, getElem?_slice, getElem?_overwrite hfits]
  split
  · rw [if_neg (by omega)]
  · rfl

/-- The buffer with the bytes of a range in opposite order. -/
def reverseRange (buffer : Buffer) (start count : Nat) : Buffer :=
  buffer.overwrite start (buffer.slice start count).reverse

@[simp] theorem size_reverseRange (start count : Nat) :
    (buffer.reverseRange start count).size = buffer.size :=
  size_overwrite ..

theorem slice_reverseRange {count : Nat} (hfits : start + count ≤ buffer.size) :
    (buffer.reverseRange start count).slice start count = (buffer.slice start count).reverse := by
  have hlength : (buffer.slice start count).reverse.length = count := by
    rw [List.length_reverse, length_slice hfits]
  have hroom : start + (buffer.slice start count).reverse.length ≤ buffer.size := by omega
  have hslice := slice_overwrite hroom
  rwa [hlength] at hslice

/-! ## Windows -/

/-- Two buffers have the same bytes in a range that both contain. -/
structure SameWindow (first second : Buffer) (start size : Nat) : Prop where
  fits_first : start + size ≤ first.size
  fits_second : start + size ≤ second.size
  bytes : ∀ index, start ≤ index → index < start + size → first[index]? = second[index]?

theorem SameWindow.refl {size : Nat} (hfits : start + size ≤ buffer.size) :
    SameWindow buffer buffer start size :=
  ⟨hfits, hfits, fun _ _ _ => rfl⟩

theorem SameWindow.inside {first second : Buffer} {size inner width : Nat}
    (h : SameWindow first second start size) (hstart : start ≤ inner)
    (hstop : inner + width ≤ start + size) : SameWindow first second inner width where
  fits_first := Nat.le_trans hstop h.fits_first
  fits_second := Nat.le_trans hstop h.fits_second
  bytes index hlow hhigh := h.bytes index (by omega) (by omega)

theorem SameWindow.slice_eq {first second : Buffer} {size : Nat}
    (h : SameWindow first second start size) :
    first.slice start size = second.slice start size := by
  apply List.ext_getElem?
  intro index
  rw [getElem?_slice, getElem?_slice]
  split
  · exact h.bytes _ (by omega) (by omega)
  · rfl

end BinarySchema.Buffer
