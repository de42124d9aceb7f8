import BinarySchema.Proofs.Layout.Size
import BinarySchema.Proofs.Schema.Spelling

/-!
# Sizes of names with a numeric bound

A name with a numeral in brackets at its end is an array.  Up to the largest 64-bit word the numeral
counts its elements; a larger one says nothing, and the array has the size of an open one.
-/

namespace BinarySchema

open Text (Blanks Digits)

def Text.Digits.label (numeral : Digits) : String :=
  String.ofList ('[' :: (numeral.text ++ [']']))

/-- The name of an element, from the text in front of the brackets. -/
def Text.strip (front : String) : String :=
  String.ofList (trim front.toList)

theorem TypeRecord.ofDeclarator?_append_numeral (front : String) (numeral : Digits) :
    TypeRecord.ofDeclarator? (front ++ numeral.label) =
      some (.array (front ++ numeral.label) (Text.strip front) numeral.word?) := by
  let tight : Blanks := ⟨[], by simp⟩
  have htext : (front ++ numeral.label).toList =
      front.toList ++ '[' :: (tight.text ++ (numeral.text ++ tight.text) ++ ']' :: tight.text) := by
    simp [tight, Digits.label]
  rw [ofDeclarator?, htext, Declarator.ofText_append_numeral]
  rfl

namespace Context

variable {context : Context}

theorem sizeOf_array_eq_ok_iff {name element : String} {length : UInt64}
    (hresolve : context.resolve? name = some (.array name element (some length)))
    (total : UInt64) :
    context.sizeOf name = .ok total ↔
      ∃ size, context.partSize context.limits.depth element = .ok size ∧
        total.toNat = length.toNat * size.toNat := by
  rw [sizeOf_eq_ok_iff]
  constructor
  · rintro ⟨record, hfound, hsize⟩
    cases hresolve.symm.trans hfound
    obtain ⟨part, size, hpart, hstride, htotal⟩ :=
      (sizedByParts_of_sizeOfRecord rfl hsize).of_array rfl rfl
    cases hpart
    exact ⟨size, hstride, htotal⟩
  · rintro ⟨size, hstride, htotal⟩
    exact ⟨_, hresolve, (sizeWithin_succ_eq_ok_iff rfl).mpr (.array rfl rfl rfl hstride htotal)⟩

theorem sizeOf_openArray {name element : String}
    (hresolve : context.resolve? name = some (.array name element none)) :
    context.sizeOf name = .ok 0 :=
  sizeOf_eq_ok_iff.mpr
    ⟨_, hresolve, (sizeWithin_succ_eq_ok_iff rfl).mpr (.openArray rfl rfl)⟩

/-- A bound that a word can hold is the number of elements: the size is found exactly when the
element has one, a level of nesting further down, and the product fits a word too.  A bound that no
word can hold counts as none. -/
theorem sizeOf_append_numeral (context : Context) (front : String) (numeral : Digits)
    (hfree : context.registry.get? (front ++ numeral.label) = none) :
    (numeral.value < UInt64.size → ∀ total,
      context.sizeOf (front ++ numeral.label) = .ok total ↔
        ∃ size, context.sizeOf (Text.strip front) = .ok size ∧
          context.partSize context.limits.depth (Text.strip front) = .ok size ∧
          total.toNat = numeral.value * size.toNat) ∧
      (UInt64.size ≤ numeral.value → context.sizeOf (front ++ numeral.label) = .ok 0) := by
  have hresolve := (resolve?_of_free hfree).trans
    (TypeRecord.ofDeclarator?_append_numeral front numeral)
  refine ⟨fun hfits total => ?_, fun hlarge => ?_⟩
  · have hlength : (UInt64.ofNat numeral.value).toNat = numeral.value :=
      UInt64.toNat_ofNat_of_lt' hfits
    rw [Digits.word?, if_pos hfits] at hresolve
    rw [sizeOf_array_eq_ok_iff hresolve, hlength]
    refine exists_congr fun size => ⟨?_, And.right⟩
    exact fun h => ⟨sizeOf_of_partSize h.1, h⟩
  · rw [Digits.word?, if_neg (Nat.not_lt.mpr hlarge)] at hresolve
    exact sizeOf_openArray hresolve

/-- The first number that no word can hold. -/
def wordCount : Digits :=
  ⟨"18446744073709551616".toList, by decide, List.all_eq_true.mp (by decide)⟩

theorem sizeOf_append_numeral_word :
    let context := Context.ofRecords [.base "word" 2 .unsigned] .arm {}
    context.registry.get? "word [0003]" = none ∧
      context.registry.get? "word[18446744073709551616]" = none ∧
      context.sizeOf "word" = .ok 2 ∧ context.sizeOf "word [0003]" = .ok 6 ∧
      context.sizeOf "word[18446744073709551616]" = .ok 0 := by
  intro context
  let three : Digits := ⟨"0003".toList, by decide, List.all_eq_true.mp (by decide)⟩
  have hword : context.sizeOf "word" = .ok 2 := rfl
  have hthree := (sizeOf_append_numeral context "word " three (by decide)).1 (by decide) 6
  have hlarge := (sizeOf_append_numeral context "word" wordCount (by decide)).2 (by decide)
  exact ⟨by decide, by decide, hword, hthree.mpr ⟨2, hword, rfl, rfl⟩, hlarge⟩

/-- Twice `2 ^ 64` bytes would not fit a word, and the type has no bytes at all. -/
theorem sizeOf_past_word :
    let context := Context.ofRecords [.base "word" 2 .unsigned] .arm {}
    context.registry.get? ("word" ++ wordCount.label) = none ∧
      context.sizeOf "word" = .ok 2 ∧ wordCount.value * (2 : UInt64).toNat ≠ 0 ∧
      context.sizeOf ("word" ++ wordCount.label) = .ok 0 := by
  intro context
  have hfree : context.registry.get? ("word" ++ wordCount.label) = none := by decide
  have hword : wordCount.word? = none := by decide
  have hresolve := (resolve?_of_free hfree).trans
    (TypeRecord.ofDeclarator?_append_numeral "word" wordCount)
  rw [hword] at hresolve
  exact ⟨hfree, rfl, by decide, sizeOf_openArray hresolve⟩

end Context

end BinarySchema
