import BinarySchema.Json.Node
import BinarySchema.Json.Printer
import BinarySchema.Proofs.Number.Exact
import BinarySchema.Proofs.Number.Shortest

/-!
# Numerals and what they stand for

The printed numbers are numerals that the grammar reads to their ends, and each stands for the very
number that was printed: the meaning here takes all digits and rounds once.
-/

namespace BinarySchema.Json

open Text (decimal isDecimalDigit)

/-! ## The meaning of a numeral -/

def wholeOfDigits (digits : List Nat) : Nat :=
  digits.foldl (fun high digit => 10 * high + digit) 0

namespace NumberText

/-- The power of ten of the last digit. -/
def power (text : NumberText) : Int :=
  let exponent : Int := text.exponent.elim 0 fun (minus, digits) =>
    if minus then -(wholeOfDigits digits : Int) else wholeOfDigits digits
  exponent - text.fraction.length

/-- What a numeral stands for, with all its digits: a whole number if it has neither fraction nor
exponent, else the float nearest to it. -/
def exactValue (text : NumberText) : Number :=
  if text.fraction.isEmpty && text.exponent.isNone then
    .integer (if text.negative then -(wholeOfDigits text.whole : Int) else wholeOfDigits text.whole)
  else
    let (num, den) := scaledBy 10 (wholeOfDigits (text.whole ++ text.fraction)) 1 (-text.power)
    .float (.ofRatio text.negative num den)

/-- The meaning by which every numeral stands for its number. -/
def exactValue? (text : NumberText) : Option Number :=
  some text.exactValue

end NumberText

/-! ## Digits -/

def digitValues (digits : List Char) : List Nat :=
  digits.map fun c => c.toNat - '0'.toNat

@[simp] theorem length_digitValues (digits : List Char) :
    (digitValues digits).length = digits.length :=
  List.length_map _

theorem digitValues_append (digits others : List Char) :
    digitValues (digits ++ others) = digitValues digits ++ digitValues others :=
  List.map_append

theorem wholeOfDigits_digitValues (digits : List Char) :
    wholeOfDigits (digitValues digits) = Nat.ofDigitChars 10 digits 0 := by
  rw [wholeOfDigits, digitValues, List.foldl_map, Nat.ofDigitChars_eq_foldl]

@[simp] theorem wholeOfDigits_decimal (value : Nat) :
    wholeOfDigits (digitValues (decimal value)) = value := by
  rw [wholeOfDigits_digitValues]
  exact Nat.ofDigitChars_ten_toDigits

theorem isDecimalDigit_of_mem_decimal {value : Nat} {c : Char} (h : c ∈ decimal value) :
    isDecimalDigit c = true :=
  Nat.isDigit_of_mem_toDigits (by decide) (by decide) h

theorem eq_zero_of_isDecimalDigit {c : Char} (h : isDecimalDigit c = true)
    (hzero : c.toNat - '0'.toNat = 0) : c = '0' := by
  simp only [isDecimalDigit, Bool.and_eq_true, decide_eq_true_eq, Char.le_def,
    UInt32.le_iff_toNat_le] at h
  have hlow : '0'.toNat ≤ c.toNat := h.1
  exact Char.toNat_inj.mp (by omega)

/-- The digits of a positive number start with one that is not zero. -/
theorem decimal_eq_cons {value : Nat} (hpos : 0 < value) :
    ∃ c rest, decimal value = c :: rest ∧ c ≠ '0' := by
  induction value using Nat.strong_induction_on with
  | _ value ih =>
      rcases Nat.lt_or_ge value 10 with hlt | hge
      · refine ⟨_, [], Nat.toDigits_of_lt_base hlt, ?_⟩
        rw [ne_eq, Nat.digitChar_eq_zero]
        exact hpos.ne'
      · obtain ⟨c, rest, heq, hc⟩ := ih (value / 10) (by omega) (by omega)
        refine ⟨c, rest ++ [(value % 10).digitChar], ?_, hc⟩
        rw [decimal, Nat.toDigits_of_base_le (by decide) hge, ← decimal, heq, List.cons_append]

/-- What may follow a numeral in a text. -/
def EndsNumeral (tail : List Char) : Prop :=
  ∀ c rest, tail = c :: rest → isDecimalDigit c = false ∧ c ≠ '.' ∧ c ≠ 'e' ∧ c ≠ 'E'

theorem readDigits_append {digits tail : List Char}
    (hdigits : ∀ c ∈ digits, isDecimalDigit c = true)
    (htail : ∀ c rest, tail = c :: rest → isDecimalDigit c = false) :
    readDigits (digits ++ tail) = (digitValues digits, tail) := by
  have htake : tail.takeWhile isDecimalDigit = [] := by
    cases tail with
    | nil => rfl
    | cons c rest => exact List.takeWhile_cons_of_neg (by simp [htail c rest rfl])
  have hdrop : tail.dropWhile isDecimalDigit = tail := by
    cases tail with
    | nil => rfl
    | cons c rest => exact List.dropWhile_cons_of_neg (by simp [htail c rest rfl])
  rw [readDigits, List.takeWhile_append_of_pos hdigits, List.dropWhile_append_of_pos hdigits, htake,
    hdrop, List.append_nil]
  rfl

/-! ## Numerals by their characters -/

/-- A numeral by its characters.  An exponent is written with its sign. -/
structure Spelling where
  negative : Bool
  whole : List Char
  fraction : List Char
  exponent : Option Int

namespace Spelling

variable {spelling : Spelling} {tail : List Char}

def fractionText (spelling : Spelling) : List Char :=
  if spelling.fraction = [] then [] else '.' :: spelling.fraction

def exponentText (spelling : Spelling) : List Char :=
  spelling.exponent.elim [] DecimalStyle.exponentText

def text (spelling : Spelling) : List Char :=
  (if spelling.negative then ['-'] else []) ++
    (spelling.whole ++ (spelling.fractionText ++ spelling.exponentText))

def numeral (spelling : Spelling) : NumberText :=
  ⟨spelling.negative, digitValues spelling.whole, digitValues spelling.fraction,
    spelling.exponent.map fun exponent =>
      (decide (exponent < 0), digitValues (decimal exponent.natAbs))⟩

/-- The number of the digits, sign apart. -/
def number (spelling : Spelling) : ℚ :=
  Nat.ofDigitChars 10 (spelling.whole ++ spelling.fraction) 0 *
    10 ^ (spelling.exponent.getD 0 - spelling.fraction.length)

/-- The characters are those that the grammar has at their places. -/
structure WellFormed (spelling : Spelling) : Prop where
  whole : ∀ c ∈ spelling.whole, isDecimalDigit c = true
  fraction : ∀ c ∈ spelling.fraction, isDecimalDigit c = true
  leading : ∃ c rest, spelling.whole = c :: rest ∧ (c = '0' → rest = [])

/-! ## Numerals are read to their ends -/

private theorem readPower_append (value : Nat) (minus : Bool) (htail : EndsNumeral tail) :
    readPower minus (decimal value ++ tail) =
      some (some (minus, digitValues (decimal value)), tail) := by
  have hdigits := readDigits_append
    (fun c (h : c ∈ decimal value) => isDecimalDigit_of_mem_decimal h)
    fun c rest h => (htail c rest h).1
  have hne : (digitValues (decimal value)).isEmpty = false := by
    simp [digitValues, decimal]
  simp only [readPower, hdigits, hne, Bool.false_eq_true, if_false]

private theorem readExponent_append (spelling : Spelling) (htail : EndsNumeral tail) :
    readExponent (spelling.exponentText ++ tail) = some (spelling.numeral.exponent, tail) := by
  unfold exponentText numeral
  cases spelling.exponent with
  | none =>
      cases tail with
      | nil => rfl
      | cons c rest =>
          obtain ⟨-, -, hlower, hupper⟩ := htail c rest rfl
          simp [readExponent, hlower, hupper]
  | some exponent =>
      have hpower := fun minus => readPower_append exponent.natAbs minus htail
      by_cases hneg : exponent < 0
      · simpa [readExponent, DecimalStyle.exponentText, hneg] using hpower true
      · simpa [readExponent, DecimalStyle.exponentText, hneg] using hpower false

/-- What follows the digits of a numeral is no digit. -/
private theorem exponentText_append_head (spelling : Spelling) (htail : EndsNumeral tail) :
    ∀ c rest, spelling.exponentText ++ tail = c :: rest → isDecimalDigit c = false ∧ c ≠ '.' := by
  unfold exponentText
  rintro c rest h
  cases hexponent : spelling.exponent with
  | none =>
      rw [hexponent] at h
      obtain ⟨hdigit, hpoint, -⟩ := htail c rest h
      exact ⟨hdigit, hpoint⟩
  | some exponent =>
      rw [hexponent] at h
      cases h
      decide

private theorem readFraction_append (hwell : spelling.WellFormed) (htail : EndsNumeral tail) :
    readFraction (spelling.fractionText ++ (spelling.exponentText ++ tail)) =
      some (digitValues spelling.fraction, spelling.exponentText ++ tail) := by
  have hhead := exponentText_append_head spelling htail
  unfold fractionText
  split
  · rename_i hnil
    rw [hnil, List.nil_append]
    unfold readFraction
    split
    · rename_i heq
      exact absurd rfl (hhead _ _ heq).2
    · rfl
  · rename_i hne
    have hdigits := readDigits_append hwell.fraction fun c rest h => (hhead c rest h).1
    have hsome : (digitValues spelling.fraction).isEmpty = false := by
      simpa [digitValues] using hne
    simp only [List.cons_append, readFraction, hdigits, hsome, Bool.false_eq_true, if_false]

private theorem readWhole_append (hwell : spelling.WellFormed) (htail : EndsNumeral tail) :
    readWhole (spelling.whole ++ (spelling.fractionText ++ (spelling.exponentText ++ tail))) =
      some (digitValues spelling.whole,
        spelling.fractionText ++ (spelling.exponentText ++ tail)) := by
  have hhead : ∀ c rest, spelling.fractionText ++ (spelling.exponentText ++ tail) = c :: rest →
      isDecimalDigit c = false := by
    unfold fractionText
    split
    · exact fun c rest h => (exponentText_append_head spelling htail c rest h).1
    · rintro c rest ⟨⟩
      rfl
  have hdigits := readDigits_append hwell.whole hhead
  obtain ⟨c, rest, heq, hleading⟩ := hwell.leading
  unfold readWhole
  rw [hdigits]
  dsimp only
  split
  · rename_i hnil
    simp [heq, digitValues] at hnil
  · rename_i hzero
    simp only [heq, digitValues, List.map_cons, List.cons.injEq] at hzero
    have hc := eq_zero_of_isDecimalDigit (hwell.whole c (heq ▸ .head _)) hzero.1
    simp [hleading hc] at hzero
  · rfl

/-- A numeral is read to its end. -/
theorem readNumeral_text (hwell : spelling.WellFormed) (htail : EndsNumeral tail) :
    readNumeral (spelling.text ++ tail) = some (spelling.numeral, tail) := by
  have hwhole := readWhole_append hwell htail
  have hfraction := readFraction_append hwell htail
  have hexponent := readExponent_append spelling htail
  obtain ⟨c, rest, heq, -⟩ := hwell.leading
  have hminus : c ≠ '-' := by
    rintro rfl
    exact absurd (hwell.whole '-' (heq ▸ .head _)) (by decide)
  have hnumeral : spelling.numeral = ⟨spelling.negative, digitValues spelling.whole,
    digitValues spelling.fraction, spelling.numeral.exponent⟩ := rfl
  unfold readNumeral text
  rw [hnumeral]
  cases spelling.negative with
  | true => simp [hwhole, hfraction, hexponent]
  | false =>
      simp only [Bool.false_eq_true, if_false, List.nil_append, List.append_assoc]
      split
      · rename_i hsign
        rw [heq] at hsign
        cases hsign
        contradiction
      · simp [hwhole, hfraction, hexponent]

example : readNumeral "-12.5e-1,".toList = some (⟨true, [1, 2], [5], some (true, [1])⟩, [',']) := by
  decide

theorem exists_head (hwell : spelling.WellFormed) :
    ∃ c rest, spelling.text = c :: rest ∧ (c = '-' ∨ isDecimalDigit c = true) := by
  obtain ⟨c, rest, heq, -⟩ := hwell.leading
  unfold text
  cases spelling.negative with
  | true => exact ⟨_, _, rfl, .inl rfl⟩
  | false => exact ⟨c, _, by rw [heq]; rfl, .inr (hwell.whole c (heq ▸ .head _))⟩

/-! ## What numerals stand for -/

private theorem power_numeral (spelling : Spelling) :
    spelling.numeral.power = spelling.exponent.getD 0 - spelling.fraction.length := by
  unfold NumberText.power numeral
  cases spelling.exponent with
  | none => simp
  | some exponent =>
      simp only [Option.map_some, Option.elim_some, wholeOfDigits_decimal, decide_eq_true_eq,
        Option.getD_some, length_digitValues]
      split <;> omega

/-- A numeral with a fraction or an exponent stands for the float nearest to its number. -/
theorem exactValue_of_float (hfloat : spelling.fraction ≠ [] ∨ spelling.exponent ≠ none) :
    ∃ num den : Nat, 0 < den ∧ (num : ℚ) / den = spelling.number ∧
      spelling.numeral.exactValue = .float (.ofRatio spelling.negative num den) := by
  have hnot : (spelling.numeral.fraction.isEmpty && spelling.numeral.exponent.isNone) = false := by
    rcases hfloat with hfraction | hexponent
    · simp [numeral, digitValues, hfraction]
    · simp [numeral, Option.isNone_eq_false_iff, Option.isSome_iff_ne_none, hexponent]
  refine ⟨_, _, scaledBy_pos (by decide) _ Nat.one_pos (-spelling.numeral.power),
    (scaledBy_ratio 10 (wholeOfDigits (spelling.numeral.whole ++ spelling.numeral.fraction)) 1
      _).trans ?_, ?_⟩
  · rw [numeral, ← digitValues_append, wholeOfDigits_digitValues, ← numeral, power_numeral, number,
      zpow_neg, Nat.cast_one, div_one, div_inv_eq_mul, Nat.cast_ofNat]
  · unfold NumberText.exactValue
    rw [hnot]
    rfl

/-- Digits alone stand for a whole number. -/
theorem exactValue_of_whole (negative : Bool) (value : Nat) :
    (Spelling.mk negative (decimal value) [] none).numeral.exactValue =
      .integer (if negative then -(value : Int) else value) := by
  unfold numeral NumberText.exactValue
  rw [wholeOfDigits_decimal]
  rfl

end Spelling

/-! ## Printed floats -/

/-- The text is a numeral with a fraction or an exponent, of the sign and number. -/
structure SpellsFloat (negative : Bool) (number : ℚ) (text : List Char) (spelling : Spelling) :
    Prop where
  wellFormed : spelling.WellFormed
  float : spelling.fraction ≠ [] ∨ spelling.exponent ≠ none
  sign : spelling.negative = negative
  text_eq : spelling.text = text
  number_eq : spelling.number = number

private theorem ofDigitChars_decimal (value : Nat) :
    Nat.ofDigitChars 10 (decimal value) 0 = value :=
  Nat.ofDigitChars_ten_toDigits

private theorem isDecimalDigit_of_mem_replicate {count : Nat} {c : Char}
    (h : c ∈ List.replicate count '0') : isDecimalDigit c = true := by
  rw [List.eq_of_mem_replicate h]
  rfl

private theorem isDecimalDigit_of_mem_zero {c : Char} (h : c ∈ ['0']) :
    isDecimalDigit c = true := by
  rw [List.mem_singleton.mp h]
  rfl

section

variable {digits : Nat} {power : Int}

/-- All digits are in front of the point. -/
private theorem exists_wholeFloat (hpos : 0 < digits) (negative : Bool) (places : Nat) :
    ∃ spelling, SpellsFloat negative (digits * 10 ^ (places : Int))
      ((if negative then ['-'] else []) ++
        (decimal digits ++ List.replicate places '0' ++ ['.', '0'])) spelling := by
  obtain ⟨first, rest, heq, hfirst⟩ := decimal_eq_cons hpos
  refine ⟨⟨negative, decimal digits ++ List.replicate places '0', ['0'], none⟩, ?_, .inl (by simp),
    rfl, by simp [Spelling.text, Spelling.fractionText, Spelling.exponentText], ?_⟩
  · refine ⟨fun c hc => ?_, fun _ => isDecimalDigit_of_mem_zero, first,
      rest ++ List.replicate places '0', by simp [heq], fun h => absurd h hfirst⟩
    exact (List.mem_append.mp hc).elim isDecimalDigit_of_mem_decimal isDecimalDigit_of_mem_replicate
  · have hone : ['0'] = List.replicate 1 '0' := rfl
    rw [Spelling.number, hone]
    simp only [Nat.ofDigitChars_append, Nat.ofDigitChars_replicate_zero, ofDigitChars_decimal,
      Option.getD_none]
    rw [List.length_replicate, Nat.cast_one, zero_sub, zpow_neg_one, zpow_natCast]
    push_cast
    ring

/-- The point is among the digits. -/
private theorem exists_splitFloat (hpos : 0 < digits) (negative : Bool) {point : Nat}
    (hpoint : 0 < point) (hlength : (point : Int) = (decimal digits).length + power)
    (hpower : power < 0) :
    ∃ spelling, SpellsFloat negative (digits * 10 ^ power)
      ((if negative then ['-'] else []) ++
        ((decimal digits).take point ++ '.' :: (decimal digits).drop point)) spelling := by
  obtain ⟨first, rest, heq, hfirst⟩ := decimal_eq_cons hpos
  obtain ⟨less, rfl⟩ := Nat.exists_eq_succ_of_ne_zero hpoint.ne'
  have hdrop : (decimal digits).drop (less + 1) ≠ [] := by
    rw [ne_eq, List.drop_eq_nil_iff]
    omega
  refine ⟨⟨negative, (decimal digits).take (less + 1), (decimal digits).drop (less + 1), none⟩,
    ?_, .inl hdrop, rfl,
    by simp [Spelling.text, Spelling.fractionText, Spelling.exponentText, hdrop], ?_⟩
  · exact ⟨fun c hc => isDecimalDigit_of_mem_decimal (List.mem_of_mem_take hc),
      fun c hc => isDecimalDigit_of_mem_decimal (List.mem_of_mem_drop hc), first, rest.take less,
      by rw [heq, List.take_succ_cons], fun h => absurd h hfirst⟩
  · have hplaces : (0 : Int) - ((decimal digits).drop (less + 1)).length = power := by
      rw [List.length_drop]
      omega
    rw [Spelling.number, List.take_append_drop, ofDigitChars_decimal, Option.getD_none, hplaces]

/-- All digits are behind the point. -/
private theorem exists_smallFloat (negative : Bool) (places : Nat)
    (hlength : ((decimal digits).length : Int) + power = -(places : Int)) :
    ∃ spelling, SpellsFloat negative (digits * 10 ^ power)
      ((if negative then ['-'] else []) ++
        ('0' :: '.' :: (List.replicate places '0' ++ decimal digits))) spelling := by
  have hsome : List.replicate places '0' ++ decimal digits ≠ [] := by simp [decimal]
  refine ⟨⟨negative, ['0'], List.replicate places '0' ++ decimal digits, none⟩, ?_, .inl hsome, rfl,
    by simp [Spelling.text, Spelling.fractionText, Spelling.exponentText, hsome], ?_⟩
  · refine ⟨fun _ => isDecimalDigit_of_mem_zero, fun c hc => ?_, '0', [], rfl, fun _ => rfl⟩
    exact (List.mem_append.mp hc).elim isDecimalDigit_of_mem_replicate isDecimalDigit_of_mem_decimal
  · have hzero : ['0'] = List.replicate 1 '0' := rfl
    have hplaces : (0 : Int) - (List.replicate places '0' ++ decimal digits).length = power := by
      rw [List.length_append, List.length_replicate]
      omega
    rw [Spelling.number, Option.getD_none, hplaces, hzero]
    simp only [Nat.ofDigitChars_append, Nat.ofDigitChars_replicate_zero, Nat.mul_zero,
      ofDigitChars_decimal]

/-- One digit is in front of the point, and the exponent makes up for it. -/
private theorem exists_scientificFloat (hpos : 0 < digits) (negative : Bool) (power : Int) :
    ∃ spelling, SpellsFloat negative (digits * 10 ^ power)
      ((if negative then ['-'] else []) ++ DecimalStyle.scientificText (decimal digits)
        (((decimal digits).length : Int) + power - 1)) spelling := by
  obtain ⟨first, rest, heq, hfirst⟩ := decimal_eq_cons hpos
  have hdigits : ∀ c ∈ first :: rest, isDecimalDigit c = true := by
    rw [← heq]
    exact fun c => isDecimalDigit_of_mem_decimal
  refine ⟨⟨negative, [first], rest, some (((decimal digits).length : Int) + power - 1)⟩, ?_,
    .inr (by simp), rfl, ?_, ?_⟩
  · exact ⟨fun c hc => hdigits c (List.mem_singleton.mp hc ▸ .head _),
      fun c hc => hdigits c (.tail _ hc), first, [], rfl, fun _ => rfl⟩
  · rw [heq]
    cases rest <;>
      simp [Spelling.text, Spelling.fractionText, Spelling.exponentText,
        DecimalStyle.scientificText]
  · have hplaces : ((decimal digits).length : Int) + power - 1 - rest.length = power := by
      rw [heq, List.length_cons]
      omega
    rw [Spelling.number, Option.getD_some, hplaces, List.singleton_append, ← heq,
      ofDigitChars_decimal]

/-- However its digits are laid out, a printed float spells its decimal. -/
theorem exists_spelling_finiteText (tie : Tie) (positional : Int → Bool) (negative : Bool)
    {significand : Nat} {exponent : Int} (hpos : 0 < significand)
    (hdigits : 0 < (Decimal.shortest tie significand exponent).digits) :
    ∃ spelling, SpellsFloat negative (Decimal.shortest tie significand exponent).number
      (DecimalStyle.finiteText ⟨tie, positional, ['.', '0']⟩ negative significand exponent)
      spelling := by
  unfold DecimalStyle.finiteText Decimal.number
  rw [if_neg hpos.ne']
  dsimp only
  generalize Decimal.shortest tie significand exponent = shortest at *
  obtain ⟨digits, power⟩ := shortest
  dsimp only
  by_cases hpositional :
      positional (((decimal digits).length : Int) + power - 1) = true
  · rw [if_pos hpositional]
    unfold DecimalStyle.positionalText
    dsimp only
    by_cases hle : 0 ≤ power
    · obtain ⟨places, rfl⟩ := Int.eq_ofNat_of_zero_le hle
      rw [if_pos hle]
      exact exists_wholeFloat hdigits negative places
    · rw [if_neg hle]
      by_cases hpoint : 0 < ((decimal digits).length : Int) + power
      · rw [if_pos hpoint]
        exact exists_splitFloat hdigits negative (by omega) (Int.toNat_of_nonneg hpoint.le)
          (by omega)
      · rw [if_neg hpoint]
        refine exists_smallFloat negative _ ?_
        rw [Int.toNat_of_nonneg (by omega), neg_neg]
  · rw [if_neg hpositional]
    exact exists_scientificFloat hdigits negative power

end

/-- A printed zero has no digits to lay out. -/
private theorem exists_zeroFloat (negative : Bool) (exponent : Int) :
    ∃ spelling, SpellsFloat negative 0 (floatStyle.finiteText negative 0 exponent) spelling := by
  refine ⟨⟨negative, ['0'], ['0'], none⟩, ?_, .inl (by simp), rfl, ?_, ?_⟩
  · exact ⟨fun _ => isDecimalDigit_of_mem_zero, fun _ => isDecimalDigit_of_mem_zero, '0', [], rfl,
      fun _ => rfl⟩
  · simp [Spelling.text, Spelling.fractionText, Spelling.exponentText, DecimalStyle.finiteText,
      floatStyle]
  · simp [Spelling.number, Nat.ofDigitChars_cons]

open BinaryFormat

/-- A printed float spells a decimal that is rounded to the float. -/
private theorem exists_spelling_nearest (negative : Bool) {significand steps : Nat}
    (hholds : double.Holds steps significand) :
    ∃ spelling,
      SpellsFloat negative spelling.number
        (floatStyle.finiteText negative significand (double.leastExponent + steps)) spelling ∧
      ∀ num den : Nat, 0 < den → (num : ℚ) / den = spelling.number →
        double.nearest num den =
          min double.infinity (steps * double.hiddenBit + significand) := by
  rcases Nat.eq_zero_or_pos significand with rfl | hpos
  · obtain ⟨spelling, hspelling⟩ := exists_zeroFloat negative (double.leastExponent + steps)
    have hnumber := hspelling.number_eq
    refine ⟨spelling, hnumber ▸ hspelling, fun num den hden hratio => ?_⟩
    exact nearest_exact hden hholds (by rw [hratio, hnumber, Nat.cast_zero, zero_mul])
  · have hdigits := Decimal.digits_shortest_pos .toEven hpos hholds
    obtain ⟨spelling, hspelling⟩ := exists_spelling_finiteText .toEven floatStyle.positional
      negative hpos hdigits
    have hnumber := hspelling.number_eq
    refine ⟨spelling, hnumber ▸ hspelling, fun num den hden hratio => ?_⟩
    exact Decimal.nearest_shortest .toEven hpos hholds hden (hratio.trans hnumber)

/-- A finite float is printed as a numeral that stands for it. -/
private theorem exists_spelling_float {value : Binary64} (hfinite : value.isFinite = true) :
    ∃ spelling : Spelling, spelling.WellFormed ∧ spelling.text = floatText value ∧
      spelling.numeral.exactValue = .float value := by
  obtain ⟨negative, significand, steps, hholds, hlt, hdatum, hvalue⟩ :=
    Binary64.exists_holds_of_isFinite hfinite
  obtain ⟨spelling, hspelling, hnearest⟩ := exists_spelling_nearest negative hholds
  obtain ⟨num, den, hden, hratio, hexact⟩ := Spelling.exactValue_of_float hspelling.float
  refine ⟨spelling, hspelling.wellFormed, ?_, ?_⟩
  · rw [hspelling.text_eq, floatText, hdatum]
  · rw [hexact, hspelling.sign, hvalue num den]
    rw [hnearest num den hden hratio, Nat.min_eq_right hlt.le]

/-- Infinities and NaNs have no numerals. -/
def Number.IsFinite : Number → Prop
  | .integer _ => True
  | .float value => value.isFinite = true

/-- A number is printed as a numeral that stands for it. -/
theorem exists_spelling {number : Number} (hfinite : number.IsFinite) :
    ∃ spelling : Spelling, spelling.WellFormed ∧ spelling.text = numberText number ∧
      spelling.numeral.exactValue = number := by
  cases number with
  | float value => exact exists_spelling_float hfinite
  | integer value =>
      refine ⟨⟨decide (value < 0), decimal value.natAbs, [], none⟩, ?_, ?_, ?_⟩
      · refine ⟨fun c => isDecimalDigit_of_mem_decimal, by simp, ?_⟩
        rcases Nat.eq_zero_or_pos value.natAbs with hzero | hpos
        · exact ⟨'0', [], by rw [hzero]; rfl, fun _ => rfl⟩
        · obtain ⟨c, rest, heq, hc⟩ := decimal_eq_cons hpos
          exact ⟨c, rest, heq, fun h => absurd h hc⟩
      · by_cases hneg : value < 0 <;>
          simp [Spelling.text, Spelling.fractionText, Spelling.exponentText, numberText, hneg]
      · rw [Spelling.exactValue_of_whole]
        congr 1
        simp only [decide_eq_true_eq]
        split <;> omega

end BinarySchema.Json
