import Mathlib.Data.List.Forall2
import BinarySchema.Command.Read

/-!
# Hexadecimal text

Text is read as bytes exactly if digit pairs are left when its blanks and then a mark are taken off.
These texts are the spellings of a rendered buffer: its letters in either case, with or without a
mark in front and with blanks anywhere.
-/

namespace BinarySchema

namespace Text

/-! ## Digits -/

/-- The digits in the order of their values. -/
def hexDigits : List Char :=
  ['0', '1', '2', '3', '4', '5', '6', '7', '8', '9', 'a', 'b', 'c', 'd', 'e', 'f']

/-- The digit itself, or the capital letter in its place. -/
def EitherCase (digit c : Char) : Prop :=
  c = digit ∨ c = digit.toUpper

instance (digit c : Char) : Decidable (EitherCase digit c) :=
  inferInstanceAs (Decidable (_ ∨ _))

def IsNibble (c : Char) (value : Nat) : Prop :=
  ∃ digit, hexDigits[value]? = some digit ∧ EitherCase digit c

private theorem nibbleDigit_facts : ∀ value < 16,
    hexDigits[value]? = some (nibbleDigit value) ∧
      nibble? (nibbleDigit value) = some value ∧ nibble? (nibbleDigit value).toUpper = some value ∧
      isBlank (nibbleDigit value) = false ∧ isBlank (nibbleDigit value).toUpper = false := by
  decide

theorem isNibble_iff {c : Char} {value : Nat} :
    IsNibble c value ↔ value < 16 ∧ EitherCase (nibbleDigit value) c := by
  constructor
  · rintro ⟨digit, hdigit, hcase⟩
    have hlt : value < 16 := (List.getElem?_eq_some_iff.mp hdigit).1
    rw [(nibbleDigit_facts value hlt).1, Option.some.injEq] at hdigit
    exact ⟨hlt, hdigit ▸ hcase⟩
  · rintro ⟨hlt, hcase⟩
    exact ⟨_, (nibbleDigit_facts value hlt).1, hcase⟩

private theorem toNat_lt_of_nibble? {c : Char} {value : Nat} (h : nibble? c = some value) :
    c.toNat < 128 := by
  have hrange {last : Char} (hlast : last.toNat < 128) (hle : c ≤ last) : c.toNat < 128 :=
    Nat.lt_of_le_of_lt hle hlast
  unfold nibble? at h
  split at h
  · rename_i hdigit
    exact hrange (by decide) hdigit.2
  · split at h
    · rename_i hsmall
      exact hrange (by decide) hsmall.2
    · split at h
      · rename_i hcapital
        exact hrange (by decide) hcapital.2
      · contradiction

theorem nibble?_eq_some_iff {c : Char} {value : Nat} :
    nibble? c = some value ↔ IsNibble c value := by
  rw [isNibble_iff]
  constructor
  · intro h
    -- There are digits among the first 128 characters only, which can be gone through one by one.
    have hcodes : ∀ code < 128, ∀ value ∈ nibble? (Char.ofNat code),
        value < 16 ∧ EitherCase (nibbleDigit value) (Char.ofNat code) := by
      decide +kernel
    have hfound := hcodes c.toNat (toNat_lt_of_nibble? h) value
    rw [Char.ofNat_toNat] at hfound
    exact hfound h
  · rintro ⟨hlt, hcase⟩
    obtain ⟨-, hsmall, hcapital, -⟩ := nibbleDigit_facts value hlt
    rcases hcase with rfl | rfl
    · exact hsmall
    · exact hcapital

theorem isBlank_of_isNibble {c : Char} {value : Nat} (h : IsNibble c value) :
    isBlank c = false := by
  obtain ⟨hlt, hcase⟩ := isNibble_iff.mp h
  obtain ⟨-, -, -, hsmall, hcapital⟩ := nibbleDigit_facts value hlt
  rcases hcase with rfl | rfl
  · exact hsmall
  · exact hcapital

/-! ## Digit pairs -/

/-- Two digits for each byte in order, the high half first. -/
inductive DigitPairs : List Char → List UInt8 → Prop
  | nil : DigitPairs [] []
  | cons {high low : Char} {h l : Nat} {rest : List Char} {bytes : List UInt8}
      (hhigh : IsNibble high h) (hlow : IsNibble low l) (hrest : DigitPairs rest bytes) :
      DigitPairs (high :: low :: rest) (UInt8.ofNat (h * 16 + l) :: bytes)

theorem pairedBytes?_eq_some_iff {digits : List Char} {bytes : List UInt8} :
    pairedBytes? digits = some bytes ↔ DigitPairs digits bytes := by
  constructor
  · intro h
    fun_induction pairedBytes? digits generalizing bytes with
    | case1 =>
        cases h
        exact .nil
    | case2 => contradiction
    | case3 high low rest h l others hothers hlow hhigh ih =>
        cases h
        exact .cons (nibble?_eq_some_iff.mp hhigh) (nibble?_eq_some_iff.mp hlow) (ih hothers)
    | case4 => contradiction
  · intro h
    induction h with
    | nil => rfl
    | cons hhigh hlow _ ih =>
        rw [pairedBytes?, nibble?_eq_some_iff.mpr hhigh, nibble?_eq_some_iff.mpr hlow, ih]

private theorem exists_digitPairs : ∀ {digits : List Char}, 2 ∣ digits.length →
    (∀ c ∈ digits, ∃ value, IsNibble c value) → ∃ bytes, DigitPairs digits bytes
  | [], _, _ => ⟨[], .nil⟩
  | [_], heven, _ => absurd heven (by simp)
  | high :: low :: rest, heven, hdigits => by
      simp only [List.length_cons, List.forall_mem_cons] at heven hdigits
      obtain ⟨⟨h, hhigh⟩, ⟨l, hlow⟩, hrest⟩ := hdigits
      obtain ⟨bytes, hbytes⟩ := exists_digitPairs (by omega) hrest
      exact ⟨_, .cons hhigh hlow hbytes⟩

theorem exists_digitPairs_iff {digits : List Char} :
    (∃ bytes, DigitPairs digits bytes) ↔
      2 ∣ digits.length ∧ ∀ c ∈ digits, ∃ value, IsNibble c value := by
  constructor
  · rintro ⟨bytes, h⟩
    induction h with
    | nil => simp
    | cons hhigh hlow _ ih =>
        simp only [List.length_cons, List.forall_mem_cons]
        exact ⟨by omega, ⟨_, hhigh⟩, ⟨_, hlow⟩, ih.2⟩
  · rintro ⟨heven, hdigits⟩
    exact exists_digitPairs heven hdigits

theorem DigitPairs.exists_value {digits : List Char} {bytes : List UInt8}
    (h : DigitPairs digits bytes) : ∀ c ∈ digits, ∃ value, IsNibble c value :=
  (exists_digitPairs_iff.mp ⟨bytes, h⟩).2

theorem DigitPairs.not_blank {digits : List Char} {bytes : List UInt8}
    (h : DigitPairs digits bytes) : ∀ c ∈ digits, isBlank c = false := by
  intro c hc
  obtain ⟨value, hvalue⟩ := h.exists_value c hc
  exact isBlank_of_isNibble hvalue

theorem DigitPairs.not_mem {digits : List Char} {bytes : List UInt8} (h : DigitPairs digits bytes)
    {c : Char} (hc : nibble? c = none) : c ∉ digits := by
  intro hmem
  obtain ⟨value, hvalue⟩ := h.exists_value c hmem
  rw [nibble?_eq_some_iff.mpr hvalue] at hc
  contradiction

/-- Digit pairs are a rendered buffer but for the case of its letters. -/
theorem digitPairs_iff_eitherCase {digits : List Char} {bytes : List UInt8} :
    DigitPairs digits bytes ↔ List.Forall₂ EitherCase (hexText bytes) digits := by
  constructor
  · intro h
    induction h with
    | nil => exact .nil
    | @cons high low h l rest bytes hhigh hlow _ ih =>
        rw [isNibble_iff] at hhigh hlow
        have hbyte : (UInt8.ofNat (h * 16 + l)).toNat = h * 16 + l :=
          UInt8.toNat_ofNat_of_lt' (show h * 16 + l < 256 by omega)
        have hfirst : (h * 16 + l) / 16 = h := by omega
        have hsecond : (h * 16 + l) % 16 = l := by omega
        refine .cons ?_ (.cons ?_ ih)
        · rw [hbyte, hfirst]
          exact hhigh.2
        · rw [hbyte, hsecond]
          exact hlow.2
  · intro h
    induction bytes generalizing digits with
    | nil =>
        cases h
        exact .nil
    | cons byte rest ih =>
        have hbyte : byte.toNat < 256 := byte.toNat_lt
        cases h with
        | cons hhigh hrest =>
            cases hrest with
            | cons hlow hothers =>
                have hpair := DigitPairs.cons
                  (isNibble_iff.mpr ⟨show byte.toNat / 16 < 16 by omega, hhigh⟩)
                  (isNibble_iff.mpr ⟨show byte.toNat % 16 < 16 by omega, hlow⟩) (ih hothers)
                have hsplit : byte.toNat / 16 * 16 + byte.toNat % 16 = byte.toNat := by omega
                rwa [hsplit, UInt8.ofNat_toNat] at hpair

/-! ## Marks and blanks -/

/-- What stands behind the mark that begins a text, or the whole text if no mark does. -/
inductive Unmarked : List Char → List Char → Prop
  | small (digits : List Char) : Unmarked ('0' :: 'x' :: digits) digits
  | capital (digits : List Char) : Unmarked ('0' :: 'X' :: digits) digits
  | bare {text : List Char} (hsmall : ¬['0', 'x'] <+: text) (hcapital : ¬['0', 'X'] <+: text) :
      Unmarked text text

theorem unmarked_iff {text digits : List Char} :
    Unmarked text digits ↔ dropHexMark text = digits := by
  constructor
  · intro h
    cases h with
    | small => rfl
    | capital => rfl
    | bare hsmall hcapital =>
        unfold dropHexMark
        split
        · simp at hsmall
        · simp at hcapital
        · rfl
  · rintro rfl
    unfold dropHexMark
    split
    · exact .small _
    · exact .capital _
    · rename_i hsmall hcapital
      refine .bare ?_ ?_
      · rintro ⟨rest, rfl⟩
        exact hsmall rest rfl
      · rintro ⟨rest, rfl⟩
        exact hcapital rest rfl

/-- The second text is the first one with blanks put in at any places. -/
inductive Spaced : List Char → List Char → Prop
  | nil : Spaced [] []
  | blank {c : Char} {text spaced : List Char} (hblank : isBlank c = true)
      (hrest : Spaced text spaced) : Spaced text (c :: spaced)
  | keep {c : Char} {text spaced : List Char} (hrest : Spaced text spaced) :
      Spaced (c :: text) (c :: spaced)

theorem Spaced.refl (text : List Char) : Spaced text text := by
  induction text with
  | nil => exact .nil
  | cons c rest ih => exact .keep ih

theorem spaced_filter (text : List Char) : Spaced (text.filter fun c => !isBlank c) text := by
  induction text with
  | nil => exact .nil
  | cons c rest ih =>
      cases hc : isBlank c with
      | true =>
          rw [List.filter_cons_of_neg (by simp [hc])]
          exact .blank hc ih
      | false =>
          rw [List.filter_cons_of_pos (by simp [hc])]
          exact .keep ih

theorem Spaced.filter_eq {text spaced : List Char} (h : Spaced text spaced)
    (htext : ∀ c ∈ text, isBlank c = false) : spaced.filter (fun c => !isBlank c) = text := by
  induction h with
  | nil => rfl
  | blank hblank _ ih => rw [List.filter_cons_of_neg (by simp [hblank]), ih htext]
  | keep _ ih =>
      obtain ⟨hc, hrest⟩ := List.forall_mem_cons.mp htext
      rw [List.filter_cons_of_pos (by simp [hc]), ih hrest]

def hexMarks : List (List Char) :=
  [[], ['0', 'x'], ['0', 'X']]

theorem not_blank_of_mark {mark : List Char} (h : mark ∈ hexMarks) :
    ∀ c ∈ mark, isBlank c = false := by
  simp only [hexMarks, List.mem_cons, List.not_mem_nil, or_false] at h
  rcases h with rfl | rfl | rfl
  · simp
  · simp [show isBlank '0' = false from rfl, show isBlank 'x' = false from rfl]
  · simp [show isBlank '0' = false from rfl, show isBlank 'X' = false from rfl]

/-- Neither is a mark taken for digits nor are digits taken for a mark. -/
theorem DigitPairs.unmarked_iff {text digits : List Char} {bytes : List UInt8}
    (h : DigitPairs digits bytes) :
    Unmarked text digits ↔ ∃ mark ∈ hexMarks, text = mark ++ digits := by
  constructor
  · intro hunmarked
    cases hunmarked with
    | small => exact ⟨['0', 'x'], by decide, rfl⟩
    | capital => exact ⟨['0', 'X'], by decide, rfl⟩
    | bare => exact ⟨[], by decide, rfl⟩
  · rintro ⟨mark, hmark, rfl⟩
    simp only [hexMarks, List.mem_cons, List.not_mem_nil, or_false] at hmark
    rcases hmark with rfl | rfl | rfl
    · -- A mark has a letter in it that is no digit.
      have hsmall : 'x' ∉ digits := h.not_mem (by decide)
      have hcapital : 'X' ∉ digits := h.not_mem (by decide)
      apply Unmarked.bare
      · exact fun hbegins => hsmall (hbegins.subset (by decide))
      · exact fun hbegins => hcapital (hbegins.subset (by decide))
    · exact .small digits
    · exact .capital digits

theorem hexBytes?_eq_some_iff {text : List Char} {bytes : List UInt8} :
    hexBytes? text = some bytes ↔
      ∃ digits, Unmarked (text.filter fun c => !isBlank c) digits ∧ DigitPairs digits bytes := by
  simp only [hexBytes?, pairedBytes?_eq_some_iff, unmarked_iff, exists_eq_left']

end Text

/-! ## Buffers -/

namespace Buffer

/-- A text is a spelling of a buffer: rendered with letters in either case, behind a mark or none,
and with blanks put in at any places. -/
def SpelledBy (buffer : Buffer) (text : String) : Prop :=
  ∃ mark ∈ Text.hexMarks, ∃ digits, List.Forall₂ Text.EitherCase buffer.toHex.toList digits ∧
    Text.Spaced (mark ++ digits) text.toList

theorem ofHex_eq_ok_iff {text : String} {buffer : Buffer} :
    ofHex text = .ok buffer ↔
      ∃ digits, Text.Unmarked (text.toList.filter fun c => !Text.isBlank c) digits ∧
        Text.DigitPairs digits buffer.toList := by
  rw [← Text.hexBytes?_eq_some_iff]
  unfold ofHex
  split
  · rename_i bytes hbytes
    rw [hbytes, Except.ok.injEq, Option.some.injEq]
    constructor
    · rintro rfl
      rfl
    · rintro rfl
      rfl
  · rename_i hnone
    simp [hnone]

theorem ofHex_eq_error_iff {text : String} {failure : Error} :
    ofHex text = .error failure ↔
      failure = .invalidHex text ∧ ¬∃ buffer, ofHex text = .ok buffer := by
  unfold ofHex
  split
  · simp
  · simp [eq_comm]

theorem ofHex_eq_ok_iff_spelledBy {text : String} {buffer : Buffer} :
    ofHex text = .ok buffer ↔ buffer.SpelledBy text := by
  rw [ofHex_eq_ok_iff, SpelledBy, toHex, String.toList_ofList]
  constructor
  · rintro ⟨digits, hunmarked, hpairs⟩
    obtain ⟨mark, hmark, htext⟩ := hpairs.unmarked_iff.mp hunmarked
    refine ⟨mark, hmark, digits, Text.digitPairs_iff_eitherCase.mp hpairs, ?_⟩
    rw [← htext]
    exact Text.spaced_filter _
  · rintro ⟨mark, hmark, digits, hcase, hspaced⟩
    have hpairs := Text.digitPairs_iff_eitherCase.mpr hcase
    have hcompact := hspaced.filter_eq fun c hc =>
      (List.mem_append.mp hc).elim (Text.not_blank_of_mark hmark c) (hpairs.not_blank c)
    exact ⟨digits, hpairs.unmarked_iff.mpr ⟨mark, hmark, hcompact⟩, hpairs⟩

theorem exists_ofHex_iff {text : String} :
    (∃ buffer, ofHex text = .ok buffer) ↔
      ∃ digits, Text.Unmarked (text.toList.filter fun c => !Text.isBlank c) digits ∧
        2 ∣ digits.length ∧ ∀ c ∈ digits, ∃ value, Text.IsNibble c value := by
  constructor
  · rintro ⟨buffer, h⟩
    obtain ⟨digits, hunmarked, hpairs⟩ := ofHex_eq_ok_iff.mp h
    exact ⟨digits, hunmarked, Text.exists_digitPairs_iff.mp ⟨_, hpairs⟩⟩
  · rintro ⟨digits, hunmarked, hdigits⟩
    obtain ⟨bytes, hpairs⟩ := Text.exists_digitPairs_iff.mpr hdigits
    exact ⟨bytes.toArray, ofHex_eq_ok_iff.mpr ⟨digits, hunmarked, hpairs⟩⟩

theorem ofHex_toHex (buffer : Buffer) : ofHex buffer.toHex = .ok buffer := by
  refine ofHex_eq_ok_iff_spelledBy.mpr ⟨[], by decide, buffer.toHex.toList, ?_, ?_⟩
  · exact List.forall₂_same.mpr fun _ _ => .inl rfl
  · exact Text.Spaced.refl _

/-- Text is read as a buffer exactly if, blanks and then a mark taken off, an even number of digits
is left, and the bytes are those of the digit pairs.  So a rendered buffer is read back, also with
its letters in either case, behind a mark and with blanks anywhere; and there is one failure, with
the text in it. -/
theorem ofHex_exact (text : String) (buffer : Buffer) :
    (ofHex text = .ok buffer ↔
      ∃ digits, Text.Unmarked (text.toList.filter fun c => !Text.isBlank c) digits ∧
        Text.DigitPairs digits buffer.toList) ∧
    ((∃ read, ofHex text = .ok read) ↔
      ∃ digits, Text.Unmarked (text.toList.filter fun c => !Text.isBlank c) digits ∧
        2 ∣ digits.length ∧ ∀ c ∈ digits, ∃ value, Text.IsNibble c value) ∧
    ofHex buffer.toHex = .ok buffer ∧
    (ofHex text = .ok buffer ↔ buffer.SpelledBy text) ∧
    ∀ failure, ofHex text = .error failure ↔
      failure = .invalidHex text ∧ ¬∃ read, ofHex text = .ok read :=
  ⟨ofHex_eq_ok_iff, exists_ofHex_iff, ofHex_toHex buffer, ofHex_eq_ok_iff_spelledBy,
    fun _ => ofHex_eq_error_iff⟩

/-- Blanks may part a mark or a pair, and only one mark is taken off. -/
theorem ofHex_exact_split :
    ofHex "0 X01 f\nF7a" = .ok #[0x01, 0xff, 0x7a] ∧
      ofHex "0x0x01" = .error (.invalidHex "0x0x01") := by
  constructor
  · refine (ofHex_exact _ _).2.2.2.1.mpr
      ⟨['0', 'X'], by decide, ['0', '1', 'f', 'F', '7', 'a'], ?_, ?_⟩
    · decide
    · exact .keep (.blank rfl (.keep (.keep (.keep (.blank rfl (.keep (.blank rfl
        (.keep (.keep (.keep .nil))))))))))
  · refine ((ofHex_exact _ #[]).2.2.2.2 _).mpr ⟨rfl, ?_⟩
    rw [(ofHex_exact _ #[]).2.1]
    rintro ⟨digits, hunmarked, -, hdigits⟩
    rw [Text.unmarked_iff] at hunmarked
    subst hunmarked
    obtain ⟨value, hvalue⟩ := hdigits 'x' (by decide)
    exact absurd (Text.nibble?_eq_some_iff.mpr hvalue) (by simp [Text.nibble?])

end Buffer

end BinarySchema
