import Mathlib.Tactic.SplitIfs

/-!
# The order of texts by their bytes

Characters are encoded by bytes that compare as they do, and no encoding begins another.  So texts,
which compare character by character, compare as their encodings do byte by byte.
-/

namespace BinarySchema.Text

/-- The bytes of a text in UTF-8. -/
def bytes (text : String) : List UInt8 :=
  text.toUTF8.data.toList

theorem bytes_eq_flatMap (text : String) :
    bytes text = text.toList.flatMap String.utf8EncodeChar := by
  rw [bytes, String.toUTF8_eq_toByteArray, ← String.utf8Encode_toList, List.utf8Encode,
    List.toList_data_toByteArray]

/-- The bytes of two characters differ before either ends, whatever follows them. -/
private theorem utf8EncodeChar_append_lt {c d : Char} (h : c < d) (rest others : List UInt8) :
    String.utf8EncodeChar c ++ rest < String.utf8EncodeChar d ++ others := by
  have hcode : c.val.toNat < d.val.toNat := h
  have hlast : d.val.toNat < 0x110000 := by
    have := d.valid
    omega
  have htwo (n : Nat) : n / 4096 = n / 64 / 64 := by omega
  have hthree (n : Nat) : n / 262144 = n / 64 / 64 / 64 := by omega
  simp only [String.utf8EncodeChar, htwo, hthree]
  generalize c.val.toNat = code at *
  generalize d.val.toNat = later at *
  -- The first byte of a longer encoding is greater, and encodings of one length are digits in base
  -- sixty-four above a fixed first byte.
  split_ifs <;>
    simp only [List.cons_append, List.nil_append, List.cons_lt_cons_iff, UInt8.lt_iff_toNat_lt,
      ← UInt8.toNat_inj, UInt8.toNat_ofNat'] <;>
    omega

private theorem flatMap_utf8EncodeChar_lt {front back : List Char} (h : front < back) :
    front.flatMap String.utf8EncodeChar < back.flatMap String.utf8EncodeChar := by
  induction front generalizing back with
  | nil =>
      cases back with
      | nil => exact absurd h (List.lt_irrefl [])
      | cons d others =>
          obtain ⟨byte, bytes, hbytes⟩ := List.exists_cons_of_ne_nil
            (String.utf8EncodeChar_ne_nil (c := d))
          rw [List.flatMap_nil, List.flatMap_cons, hbytes]
          exact List.nil_lt_cons _ _
  | cons c rest ih =>
      cases back with
      | nil => exact absurd h (List.not_lt_nil _)
      | cons d others =>
          rw [List.flatMap_cons, List.flatMap_cons]
          rcases List.cons_lt_cons_iff.mp h with hlt | ⟨rfl, hrest⟩
          · exact utf8EncodeChar_append_lt hlt _ _
          · exact List.append_left_lt (ih hrest)

private theorem bytes_lt_of_lt {a b : String} (h : a < b) : bytes a < bytes b := by
  rw [bytes_eq_flatMap, bytes_eq_flatMap]
  exact flatMap_utf8EncodeChar_lt h

theorem lt_iff_bytes_lt {a b : String} : a < b ↔ bytes a < bytes b := by
  constructor
  · exact bytes_lt_of_lt
  · intro h
    by_cases hlt : a < b
    · exact hlt
    · by_cases hback : b < a
      · exact absurd (bytes_lt_of_lt hback) (List.lt_asymm h)
      · have heq : a = b := String.le_antisymm (String.not_lt.mp hback) (String.not_lt.mp hlt)
        exact absurd (heq ▸ h) (List.lt_irrefl _)

end BinarySchema.Text
