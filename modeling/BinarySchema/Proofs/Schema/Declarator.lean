import Mathlib.Data.List.DropRight
import Mathlib.Data.List.Induction
import Mathlib.Data.List.TakeWhile
import BinarySchema.Layout

/-!
# Names that spell arrays

A name with a bound in brackets behind it spells an array over that name, and the bound is read back
as it was written.  The last brackets are the outermost ones, so the name of an array of arrays has
the inner length first.
-/

namespace BinarySchema

namespace Text

/-! ## Text without blanks at its ends -/

/-- There is no blank at either end. -/
structure Trimmed (text : List Char) : Prop where
  first : ∀ c ∈ text.head?, isBlank c = false
  last : ∀ c ∈ text.getLast?, isBlank c = false

private theorem dropWhile_isBlank {text : List Char} (h : ∀ c ∈ text.head?, isBlank c = false) :
    text.dropWhile isBlank = text := by
  cases text with
  | nil => rfl
  | cons c rest => simp [h c rfl]

theorem Trimmed.trim_eq {text : List Char} (h : Trimmed text) : trim text = text := by
  have hlast : ∀ c ∈ text.reverse.head?, isBlank c = false := by
    simpa only [List.head?_reverse] using h.last
  rw [trim, trimLeft, dropWhile_isBlank h.first, trimRight, dropWhile_isBlank hlast,
    List.reverse_reverse]

theorem trimmed_of_forall {text : List Char} (h : ∀ c ∈ text, isBlank c = false) : Trimmed text :=
  ⟨fun c hc => h c (List.mem_of_head? hc), fun c hc => h c (List.mem_of_getLast? hc)⟩

theorem Trimmed.append {front back : List Char} (hfront : Trimmed front) (hback : Trimmed back) :
    Trimmed (front ++ back) := by
  constructor
  · cases front with
    | nil => exact hback.first
    | cons => exact hfront.first
  · rcases List.eq_nil_or_concat back with rfl | ⟨rest, c, rfl⟩
    · rw [List.append_nil]
      exact hfront.last
    · rw [List.concat_eq_append, ← List.append_assoc, List.getLast?_concat]
      simpa using hback.last

theorem trimLeft_trimLeft (text : List Char) : trimLeft (trimLeft text) = trimLeft text :=
  List.dropWhile_idempotent isBlank text

private theorem isBlank_of_head?_trimLeft {text : List Char} {c : Char}
    (h : c ∈ (trimLeft text).head?) : isBlank c = false := by
  have hnot := List.head?_dropWhile_not isBlank text
  rwa [show (text.dropWhile isBlank).head? = some c from h] at hnot

theorem trimmed_trim (text : List Char) : Trimmed (trim text) := by
  constructor
  · intro c hc
    obtain ⟨blanks, hblanks⟩ : trim text <+: trimLeft text :=
      List.rdropWhile_prefix isBlank (trimLeft text)
    exact isBlank_of_head?_trimLeft (hblanks ▸ List.mem_head?_append_of_mem_head? hc)
  · intro c hc
    rw [trim, trimRight, List.getLast?_reverse] at hc
    exact isBlank_of_head?_trimLeft hc

/-! ## Runs of blanks -/

/-- A run of blanks, which may be empty. -/
structure Blanks where
  text : List Char
  blank : ∀ c ∈ text, isBlank c = true

theorem Blanks.not_mem (blanks : Blanks) {c : Char} (hc : isBlank c = false) : c ∉ blanks.text :=
  fun hmem => Bool.noConfusion (hc.symm.trans (blanks.blank c hmem))

theorem trim_blanks_append (blanks : Blanks) (text : List Char) :
    trim (blanks.text ++ text) = trim text := by
  rw [trim, trimLeft, List.dropWhile_append_of_pos blanks.blank, trim, trimLeft]

theorem trim_append_blanks (text : List Char) (blanks : Blanks) :
    trim (text ++ blanks.text) = trim text := by
  have hreverse : ∀ c ∈ blanks.text.reverse, isBlank c = true :=
    fun c hc => blanks.blank c (List.mem_reverse.mp hc)
  rw [trim, trim, trimLeft, trimLeft, List.dropWhile_append]
  split
  · rename_i hempty
    rw [List.isEmpty_iff.mp hempty, List.dropWhile_eq_nil_iff.mpr blanks.blank]
  · rw [trimRight, List.reverse_append, List.dropWhile_append_of_pos hreverse, trimRight]

theorem trimLeft_append_mark (front : List Char) {mark : Char} (hmark : isBlank mark = false)
    (back : List Char) : trimLeft (front ++ mark :: back) = trimLeft front ++ mark :: back := by
  rw [trimLeft, List.dropWhile_append, trimLeft]
  split
  · rename_i hempty
    rw [List.isEmpty_iff.mp hempty, List.dropWhile_cons_of_neg (by simp [hmark]), List.nil_append]
  · rfl

/-- A mark behind a text keeps all blanks in front of it but those that begin the text. -/
theorem trim_append_mark (front : List Char) {mark : Char} (hmark : isBlank mark = false)
    (blanks : Blanks) : trim (front ++ mark :: blanks.text) = trimLeft front ++ [mark] := by
  rw [List.append_cons, trim_append_blanks, trim, trimLeft_append_mark front hmark, trimRight,
    List.reverse_append, List.reverse_singleton, List.singleton_append,
    List.dropWhile_cons_of_neg (by simp [hmark])]
  simp

/-! ## Decimal numerals -/

theorem isBlank_of_isDigit {c : Char} (h : c.isDigit = true) : isBlank c = false := by
  simp only [Char.isDigit, Bool.and_eq_true, decide_eq_true_eq, ge_iff_le, UInt32.le_iff_toNat_le,
    Char.toNat_val] at h
  have hlow : 48 ≤ c.toNat := h.1
  have hhigh : c.toNat ≤ 57 := h.2
  simp only [isBlank, Bool.or_eq_false_iff, Bool.and_eq_false_iff, decide_eq_false_iff_not,
    beq_eq_false_iff_ne]
  omega

theorem radixDigit?_of_isDigit {c : Char} (h : c.isDigit = true) :
    radixDigit? 10 c = some (c.toNat - '0'.toNat) := by
  simp only [Char.isDigit, Bool.and_eq_true, decide_eq_true_eq, ge_iff_le] at h
  have hrange : '0' ≤ c ∧ c ≤ '9' := h
  have hlt : c.toNat - '0'.toNat < 10 := by
    have hhigh : c.toNat ≤ 57 := h.2
    have hzero : '0'.toNat = 48 := rfl
    omega
  rw [radixDigit?, digitValue?, if_pos hrange]
  exact if_pos hlt

theorem extendNumeral?_of_isDigit {text : List Char} (h : ∀ c ∈ text, c.isDigit = true)
    (high : Nat) : extendNumeral? 10 high text = some (Nat.ofDigitChars 10 text high) := by
  induction text generalizing high with
  | nil => rfl
  | cons c rest ih =>
      rw [extendNumeral?, radixDigit?_of_isDigit (h c (.head _)), Nat.ofDigitChars_cons]
      simp only [ih fun other hmem => h other (.tail _ hmem), Nat.mul_comm]

/-- Digits alone are read as a number, however many they are. -/
theorem word?_of_isDigit {text : List Char} (hne : text ≠ []) (h : ∀ c ∈ text, c.isDigit = true) :
    word? 10 text = if Nat.ofDigitChars 10 text 0 < UInt64.size
      then some (UInt64.ofNat (Nat.ofDigitChars 10 text 0)) else none := by
  obtain ⟨c, rest, rfl⟩ := List.exists_cons_of_ne_nil hne
  have hsign : c ≠ '+' := by
    rintro rfl
    exact absurd (h '+' (.head _)) (by decide)
  have hnumber : natural? 10 (c :: rest) = some (Nat.ofDigitChars 10 (c :: rest) 0) :=
    extendNumeral?_of_isDigit h 0
  unfold word?
  split
  · rename_i heq
    cases heq
    contradiction
  · simp only [hnumber]

theorem isDigit_of_mem_decimal {value : Nat} {c : Char} (h : c ∈ decimal value) :
    c.isDigit = true :=
  Nat.isDigit_of_mem_toDigits (by decide) (by decide) h

theorem word?_decimal (value : UInt64) : word? 10 (decimal value.toNat) = some value := by
  have hnumber : Nat.ofDigitChars 10 (decimal value.toNat) 0 = value.toNat :=
    Nat.ofDigitChars_ten_toDigits
  have hne : decimal value.toNat ≠ [] := Nat.toDigits_ne_nil
  rw [word?_of_isDigit hne fun _ => isDigit_of_mem_decimal, hnumber, if_pos value.toNat_lt,
    UInt64.ofNat_toNat]

end Text

/-! ## Array declarators -/

theorem toList_elementLabel (index : Nat) :
    (elementLabel index).toList = '[' :: (Text.decimal index ++ [']']) := by
  simp [elementLabel]

namespace Declarator

open Text

theorem splitLast?_append {mark : Char} {back : List Char} (h : mark ∉ back) (front : List Char) :
    splitLast? mark (front ++ mark :: back) = some (front, back) := by
  have hback : ∀ c ∈ back.reverse, decide (c ≠ mark) = true := fun c hc =>
    decide_eq_true fun heq => h (heq ▸ List.mem_reverse.mp hc)
  have hmem : mark ∈ front ++ mark :: back := by simp
  have hreverse : (front ++ mark :: back).reverse = back.reverse ++ mark :: front.reverse := by
    simp
  unfold splitLast?
  rw [if_pos hmem, hreverse, List.takeWhile_append_of_pos hback, List.dropWhile_append_of_pos hback]
  simp

theorem trimmed_brackets (group : List Char) : Trimmed ('[' :: (group ++ [']'])) := by
  constructor
  · rintro _ ⟨⟩
    decide
  · rw [← List.cons_append, List.getLast?_concat]
    rintro _ ⟨⟩
    decide

/-! The suffix at the end is the outermost one, whatever stands before it. -/

theorem ofText_append_star (front : List Char) (blanks : Blanks) :
    ofText (front ++ '*' :: blanks.text) = .pointer := by
  have htrim : trim (front ++ '*' :: blanks.text) = trimLeft front ++ ['*'] :=
    trim_append_mark front rfl blanks
  unfold ofText
  simp only [htrim, List.getLast?_concat, if_true]

theorem ofText_append_group (front : List Char) {group : List Char} (hgroup : '[' ∉ group)
    (blanks : Blanks) :
    ofText (front ++ '[' :: (group ++ ']' :: blanks.text)) =
      .array (trim front) (bound? group) := by
  have htrim : trim (front ++ '[' :: (group ++ ']' :: blanks.text)) =
      trimLeft front ++ '[' :: (group ++ [']']) := by
    have hmark : trim (front ++ '[' :: group ++ ']' :: blanks.text) =
      trimLeft (front ++ '[' :: group) ++ [']'] := trim_append_mark _ rfl blanks
    rw [trimLeft_append_mark front rfl] at hmark
    simpa only [List.append_assoc, List.cons_append] using hmark
  have hlast : (trimLeft front ++ '[' :: (group ++ [']'])).getLast? = some ']' := by
    rw [← List.cons_append, ← List.append_assoc, List.getLast?_concat]
  have hsplit : splitLast? '[' (trimLeft front ++ '[' :: (group ++ [']'])) =
      some (trimLeft front, group ++ [']']) := splitLast?_append (by simpa using hgroup) _
  have helement : trim (trimLeft front) = trim front := by
    rw [trim, trimLeft_trimLeft]
    rfl
  unfold ofText
  simp only [htrim, hlast, hsplit, helement, List.dropLast_concat]
  rfl

theorem ofText_append_label {element : List Char} (helement : Trimmed element) (length : UInt64) :
    ofText (element ++ (elementLabel length.toNat).toList) = .array element (some length) := by
  have hgroup : '[' ∉ decimal length.toNat := fun hmem =>
    absurd (isDigit_of_mem_decimal hmem) (by decide)
  have htrim : Trimmed (decimal length.toNat) :=
    trimmed_of_forall fun _ hc => isBlank_of_isDigit (isDigit_of_mem_decimal hc)
  have hgroupText := ofText_append_group element hgroup ⟨[], by simp⟩
  rw [helement.trim_eq, bound?, htrim.trim_eq, word?_decimal] at hgroupText
  rwa [toList_elementLabel]

/-! ## Elements have shorter names -/

theorem length_trim_le (text : List Char) : (trim text).length ≤ text.length := by
  have hdrop : ∀ text : List Char, (text.dropWhile isBlank).length ≤ text.length :=
    fun text => (List.dropWhile_sublist isBlank).length_le
  have hleft := hdrop text
  have hright := hdrop (trimLeft text).reverse
  rw [List.length_reverse] at hright
  simp only [trim, trimRight, List.length_reverse]
  exact Nat.le_trans hright hleft

private theorem length_splitLast_lt {mark : Char} {text before after : List Char}
    (h : splitLast? mark text = some (before, after)) : before.length < text.length := by
  unfold splitLast? at h
  simp only at h
  split at h
  · rename_i hmem
    obtain ⟨rfl, -⟩ := Prod.mk.inj (Option.some.inj h)
    have hpos := List.length_pos_of_mem hmem
    have hdrop : (text.reverse.dropWhile (· ≠ mark)).length ≤ text.reverse.length :=
      (List.dropWhile_sublist _).length_le
    simp only [List.length_reverse, List.length_tail] at hdrop ⊢
    omega
  · contradiction

private theorem length_takeWhile_lt {mark : Char} {text : List Char} (hmem : mark ∈ text) :
    (text.takeWhile (· ≠ mark)).length < text.length := by
  induction text with
  | nil => contradiction
  | cons head rest ih =>
      by_cases hhead : head = mark
      · simp [hhead]
      · have hrest : mark ∈ rest := (List.mem_cons.mp hmem).resolve_left (Ne.symm hhead)
        simpa [List.takeWhile_cons, hhead] using ih hrest

theorem length_element_lt {name element : List Char} {length : Option UInt64}
    (h : ofText name = .array element length) : element.length < name.length := by
  have htrim := length_trim_le name
  have hopen : ∀ text, text.length ≤ name.length → ofOpenText text = .array element length →
      element.length < name.length := by
    intro text hle h
    unfold ofOpenText at h
    split at h
    · rename_i hmem
      cases h
      have hcut := length_trim_le (text.takeWhile (· ≠ '['))
      have hlt := length_takeWhile_lt hmem
      omega
    · contradiction
  unfold ofText at h
  simp only at h
  split at h
  · contradiction
  · split at h
    · split at h
      · rename_i before group hsplit
        cases h
        have hcut := length_trim_le before
        have hlt := length_splitLast_lt hsplit
        omega
      · exact hopen _ htrim h
    · exact hopen _ htrim h

end Declarator

/-! ## Names of arrays in several dimensions -/

/-- The name of an array over a named type, the innermost length first. -/
def arrayName (element : String) (lengths : List UInt64) : String :=
  lengths.foldl (fun name length => name ++ elementLabel length.toNat) element

theorem arrayName_concat (element : String) (lengths : List UInt64) (length : UInt64) :
    arrayName element (lengths ++ [length]) =
      arrayName element lengths ++ elementLabel length.toNat := by
  simp [arrayName]

theorem trimmed_arrayName {element : String} (h : Text.Trimmed element.toList)
    (lengths : List UInt64) : Text.Trimmed (arrayName element lengths).toList := by
  induction lengths using List.reverseRecOn with
  | nil => exact h
  | append_singleton lengths length ih =>
      rw [arrayName_concat, String.toList_append, toList_elementLabel]
      exact ih.append (Declarator.trimmed_brackets _)

/-- The last length is that of the outermost array. -/
theorem ofDeclarator?_arrayName {element : String} (h : Text.Trimmed element.toList)
    (lengths : List UInt64) (length : UInt64) :
    TypeRecord.ofDeclarator? (arrayName element (lengths ++ [length])) =
      some (.array (arrayName element (lengths ++ [length])) (arrayName element lengths)
        (some length)) := by
  unfold TypeRecord.ofDeclarator?
  rw [arrayName_concat, String.toList_append,
    Declarator.ofText_append_label (trimmed_arrayName h lengths)]
  simp only [String.ofList_toList]

end BinarySchema
