import Mathlib.Logic.Relation
import BinarySchema.Context
import BinarySchema.Proofs.Schema.Declarator

/-!
# Names with suffixes

A root name with suffixes behind it, written with blanks wherever they may stand.  Such a name that
is not registered stands for what its last suffix says, over the name in front of that suffix.  So
the elements of spelled arrays lead down to a pointer, to a registered name or to the root.
-/

namespace BinarySchema

open Text (Blanks)

/-! ## Numerals -/

namespace Text

/-- A number of any magnitude as it is written, leading zeros included. -/
structure Digits where
  text : List Char
  ne_nil : text ≠ []
  isDigit : ∀ c ∈ text, c.isDigit = true

namespace Digits

def value (numeral : Digits) : Nat :=
  Nat.ofDigitChars 10 numeral.text 0

def word? (numeral : Digits) : Option UInt64 :=
  if numeral.value < UInt64.size then some (.ofNat numeral.value) else none

theorem not_mem (numeral : Digits) {c : Char} (hc : c.isDigit = false) : c ∉ numeral.text :=
  fun hmem => Bool.noConfusion (hc.symm.trans (numeral.isDigit c hmem))

theorem bound?_eq (numeral : Digits) (before after : Blanks) :
    Declarator.bound? (before.text ++ (numeral.text ++ after.text)) = numeral.word? := by
  have htrim : Trimmed numeral.text :=
    trimmed_of_forall fun c hc => isBlank_of_isDigit (numeral.isDigit c hc)
  rw [Declarator.bound?, trim_blanks_append, trim_append_blanks, htrim.trim_eq,
    word?_of_isDigit numeral.ne_nil numeral.isDigit]
  rfl

end Digits

end Text

/-- A numeral in brackets is the length of an array, where a word can hold it. -/
theorem Declarator.ofText_append_numeral (front : List Char) (before : Blanks)
    (numeral : Text.Digits) (behind after : Blanks) :
    ofText (front ++ '[' :: (before.text ++ (numeral.text ++ behind.text) ++ ']' :: after.text)) =
      .array (Text.trim front) numeral.word? := by
  have hgroup : '[' ∉ before.text ++ (numeral.text ++ behind.text) := by
    simpa using ⟨before.not_mem rfl, numeral.not_mem rfl, behind.not_mem rfl⟩
  rw [ofText_append_group front hgroup after, numeral.bound?_eq]

/-! ## Types of suffixes -/

namespace TypeRecord

/-- An unsigned scalar of the width of a word. -/
structure IsPointer (record : TypeRecord) : Prop where
  kind_eq : record.kind = .base
  size_eq : record.size = some .native
  representation_eq : record.representation = some .unsigned

/-- An array over a named type that has no size but that of its elements. -/
structure IsArrayOver (record : TypeRecord) (element : String) (length : Option UInt64) :
    Prop where
  kind_eq : record.kind = .array
  size_eq : record.size = none
  element_eq : record.element = some element
  length_eq : record.length = length

end TypeRecord

/-! ## Suffixes -/

open Text (Digits)

/-- A suffix as it is written. -/
inductive Suffix where
  | pointer
  | openArray (inside : Blanks)
  | array (before : Blanks) (length : Digits) (after : Blanks)
      (hfits : length.value < UInt64.size)

namespace Suffix

def text : Suffix → List Char
  | .pointer => ['*']
  | .openArray inside => '[' :: (inside.text ++ [']'])
  | .array before length after _ => '[' :: (before.text ++ (length.text ++ after.text) ++ [']'])

/-- What a suffix makes of the element in front of it. -/
def declarator (element : List Char) : Suffix → Declarator
  | .pointer => .pointer
  | .openArray _ => .array element none
  | .array _ length _ _ => .array element (some (.ofNat length.value))

/-- The type of the given name that a suffix makes of the named element. -/
def record (name element : String) : Suffix → TypeRecord
  | .pointer => .native name .unsigned
  | .openArray _ => .array name element none
  | .array _ length _ _ => .array name element (some (.ofNat length.value))

/-- What a record has to be for the suffix that made it of the named element. -/
def Makes (element : String) (record : TypeRecord) : Suffix → Prop
  | .pointer => record.IsPointer
  | .openArray _ => record.IsArrayOver element none
  | .array _ length _ _ => record.IsArrayOver element (some (.ofNat length.value))

theorem name_record (suffix : Suffix) (name element : String) :
    (suffix.record name element).name = name := by
  cases suffix <;> rfl

theorem makes_record (suffix : Suffix) (name element : String) :
    suffix.Makes element (suffix.record name element) := by
  cases suffix with
  | pointer => exact ⟨rfl, rfl, rfl⟩
  | openArray | array => exact ⟨rfl, rfl, rfl, rfl⟩

theorem text_ne_nil (suffix : Suffix) : suffix.text ≠ [] := by
  cases suffix <;> simp [text]

theorem ofText_append (front : List Char) (suffix : Suffix) (after : Blanks) :
    Declarator.ofText (front ++ suffix.text ++ after.text) =
      suffix.declarator (Text.trim front) := by
  cases suffix with
  | pointer =>
      rw [text, List.append_assoc]
      exact Declarator.ofText_append_star front after
  | openArray inside =>
      have hgroup := Declarator.ofText_append_group front (inside.not_mem rfl) after
      have hopen : Declarator.bound? inside.text = none := by
        have htrim := Text.trim_append_blanks [] inside
        rw [List.nil_append] at htrim
        rw [Declarator.bound?, htrim]
        rfl
      rw [hopen] at hgroup
      simpa [text, declarator] using hgroup
  | array before length behind hfits =>
      have hnumeral := Declarator.ofText_append_numeral front before length behind after
      rw [Digits.word?, if_pos hfits] at hnumeral
      simpa [text, declarator] using hnumeral

end Suffix

/-! ## Spellings -/

/-- A name to put suffixes on: it has no mark of a suffix in it and no blank at its ends. -/
structure Root where
  text : List Char
  trimmed : Text.Trimmed text
  unmarked : ∀ mark ∈ ['[', ']', '*'], mark ∉ text

/-- A way to write the root, or a type over it, with blanks around each part. -/
inductive Spelling (root : Root) where
  | bare (before after : Blanks)
  | suffixed (inner : Spelling root) (before : Blanks) (suffix : Suffix) (after : Blanks)

namespace Spelling

variable {root : Root}

def text : Spelling root → List Char
  | .bare before after => before.text ++ (root.text ++ after.text)
  | .suffixed inner before suffix after =>
      inner.text ++ before.text ++ suffix.text ++ after.text

def name (spelling : Spelling root) : String :=
  String.ofList spelling.text

/-- The name without the blanks at its ends, as it stands in front of a suffix. -/
def trimmedName (spelling : Spelling root) : String :=
  String.ofList (Text.trim spelling.text)

/-- What the outermost suffix says. -/
def declarator : Spelling root → Declarator
  | .bare _ _ => .named root.text
  | .suffixed inner _ suffix _ => suffix.declarator (Text.trim inner.text)

theorem trim_bare (before after : Blanks) :
    Text.trim (bare before after : Spelling root).text = root.text := by
  rw [text, Text.trim_blanks_append, Text.trim_append_blanks, root.trimmed.trim_eq]

/-- The text of a name says what the name was built from. -/
theorem ofText_text (spelling : Spelling root) :
    Declarator.ofText spelling.text = spelling.declarator := by
  cases spelling with
  | bare before after =>
      have hlast : ∀ mark ∈ ['[', ']', '*'], root.text.getLast? ≠ some mark :=
        fun mark hmark hlast => root.unmarked mark hmark (List.mem_of_getLast? hlast)
      unfold Declarator.ofText
      simp only [trim_bare, hlast '*' (by simp), hlast ']' (by simp), if_false]
      exact if_neg (root.unmarked '[' (by simp))
  | suffixed inner before suffix after =>
      rw [text, Suffix.ofText_append, Text.trim_append_blanks]
      rfl

/-- Blanks at the ends of a name make no difference to what it spells. -/
theorem ofText_of_trim_eq {spelling : Spelling root} {name : List Char}
    (h : Text.trim name = Text.trim spelling.text) :
    Declarator.ofText name = spelling.declarator := by
  rw [← ofText_text]
  unfold Declarator.ofText
  rw [h]

theorem length_trimmedName_lt (inner : Spelling root) (before : Blanks) (suffix : Suffix)
    (after : Blanks) :
    inner.trimmedName.length < (suffixed inner before suffix after).name.length := by
  have htrim := Declarator.length_trim_le inner.text
  have hsuffix := List.length_pos_of_ne_nil suffix.text_ne_nil
  simp only [trimmedName, name, String.length_ofList, text, List.length_append]
  omega

theorem ofDeclarator?_bare {name : String} {before after : Blanks}
    (h : Text.trim name.toList = Text.trim (bare before after : Spelling root).text) :
    TypeRecord.ofDeclarator? name = none := by
  rw [TypeRecord.ofDeclarator?, ofText_of_trim_eq h]
  rfl

theorem ofDeclarator?_suffixed {name : String} {inner : Spelling root} {before after : Blanks}
    {suffix : Suffix}
    (h : Text.trim name.toList = Text.trim (suffixed inner before suffix after).text) :
    TypeRecord.ofDeclarator? name = some (suffix.record name inner.trimmedName) := by
  rw [TypeRecord.ofDeclarator?, ofText_of_trim_eq h]
  cases suffix <;> rfl

theorem trim_trimmedName (spelling : Spelling root) :
    Text.trim spelling.trimmedName.toList = Text.trim spelling.text := by
  rw [trimmedName, String.toList_ofList, (Text.trimmed_trim _).trim_eq]

end Spelling

/-! ## Elements of spelled arrays -/

namespace Context

variable {context : Context} {name element : String}

theorem resolve?_of_free (h : context.registry.get? name = none) :
    context.resolve? name = TypeRecord.ofDeclarator? name := by
  rw [resolve?, Registry.resolve?, h]

/-- A name that is left to its declarator stands for an array over another name. -/
def SpelledOver (context : Context) (name element : String) : Prop :=
  context.registry.get? name = none ∧
    ∃ record, context.resolve? name = some record ∧ record.element = some element

theorem SpelledOver.length_lt (h : context.SpelledOver name element) :
    element.length < name.length := by
  obtain ⟨hfree, record, hresolve, helement⟩ := h
  rw [resolve?_of_free hfree, TypeRecord.ofDeclarator?] at hresolve
  split at hresolve
  · contradiction
  · cases hresolve
    contradiction
  · rename_i part length harray
    cases hresolve
    cases helement
    have hlt := Declarator.length_element_lt harray
    rwa [← String.length_toList, String.toList_ofList, ← String.length_toList]

/-- Elements of spelled arrays cannot be followed without end. -/
theorem acc_spelledOver (context : Context) (name : String) :
    Acc (fun element whole => context.SpelledOver whole element) name :=
  (Subrelation.wf SpelledOver.length_lt (measure String.length).wf).apply name

variable {root : Root} {spelling : Spelling root}

/-- The element of a spelled array is what stands in front of the last suffix. -/
private theorem exists_suffixed_of_spelledOver
    (hname : Text.trim name.toList = Text.trim spelling.text)
    (h : context.SpelledOver name element) :
    ∃ inner before suffix after, spelling = .suffixed inner before suffix after ∧
      element = inner.trimmedName := by
  obtain ⟨hfree, record, hresolve, helement⟩ := h
  rw [resolve?_of_free hfree] at hresolve
  cases spelling with
  | bare before after =>
      rw [Spelling.ofDeclarator?_bare hname] at hresolve
      contradiction
  | suffixed inner before suffix after =>
      rw [Spelling.ofDeclarator?_suffixed hname] at hresolve
      cases hresolve
      refine ⟨inner, before, suffix, after, rfl, ?_⟩
      cases suffix <;> cases helement <;> rfl

private theorem exists_spelling_of_spelledOver {last : String}
    (h : Relation.ReflTransGen context.SpelledOver spelling.trimmedName last) :
    ∃ other : Spelling root, last = other.trimmedName := by
  induction h with
  | refl => exact ⟨spelling, rfl⟩
  | tail _ hstep ih =>
      obtain ⟨other, rfl⟩ := ih
      obtain ⟨inner, before, suffix, after, -, rfl⟩ :=
        exists_suffixed_of_spelledOver other.trim_trimmedName hstep
      exact ⟨inner, rfl⟩

/-- Where there is no element to go on to, there is a pointer, a registered name or no suffix. -/
private theorem pointer_or_registered_or_bare
    (hname : Text.trim name.toList = Text.trim spelling.text)
    (hlast : ∀ element, ¬context.SpelledOver name element) :
    (∃ record, context.resolve? name = some record ∧ record.IsPointer) ∨
      name ∈ context.registry.names ∨ spelling.trimmedName = String.ofList root.text := by
  cases hget : context.registry.get? name with
  | some record =>
      have hmem := List.mem_of_find?_eq_some hget
      have hfound : record.name = name := by simpa using List.find?_some hget
      exact .inr (.inl (hfound ▸ List.mem_map_of_mem hmem))
  | none =>
      cases spelling with
      | bare before after =>
          exact .inr (.inr (by rw [Spelling.trimmedName, Spelling.trim_bare]))
      | suffixed inner before suffix after =>
          have hresolve := Spelling.ofDeclarator?_suffixed hname
          rw [← resolve?_of_free hget] at hresolve
          cases suffix with
          | pointer => exact .inl ⟨_, hresolve, Suffix.makes_record .pointer ..⟩
          | openArray | array => exact absurd ⟨hget, _, hresolve, rfl⟩ (hlast _)

/-- A root without suffixes stands for what is registered under its name, blanks included.  With
suffixes a name that is not registered stands for a type of that very name: a pointer, or an array
over what is in front of the last suffix, blanks at the ends taken off. -/
theorem resolve?_spelling (context : Context) (root : Root) :
    (∀ before after, let name := (Spelling.bare before after : Spelling root).name
      context.resolve? name = context.registry.get? name) ∧
    ∀ (inner : Spelling root) (before : Blanks) (suffix : Suffix) (after : Blanks),
      let name := (Spelling.suffixed inner before suffix after).name
      context.registry.get? name = none →
      (∃ record, context.resolve? name = some record ∧ record.name = name ∧
        suffix.Makes inner.trimmedName record) ∧
      inner.trimmedName.length < name.length ∧
      Acc (fun element whole => context.SpelledOver whole element) name ∧
      ∀ last, Relation.ReflTransGen context.SpelledOver name last →
        (∀ element, ¬context.SpelledOver last element) →
        (∃ record, context.resolve? last = some record ∧ record.IsPointer) ∨
          last ∈ context.registry.names ∨ last = String.ofList root.text := by
  have htext : ∀ spelling : Spelling root,
      Text.trim spelling.name.toList = Text.trim spelling.text := fun spelling => by
    rw [Spelling.name, String.toList_ofList]
  refine ⟨fun before after => ?_, fun inner before suffix after => ?_⟩
  · intro name
    cases hget : context.registry.get? name with
    | some record => rw [resolve?, Registry.resolve?, hget]
    | none => exact (resolve?_of_free hget).trans (Spelling.ofDeclarator?_bare (htext _))
  · intro name hfree
    have hresolve := (resolve?_of_free hfree).trans (Spelling.ofDeclarator?_suffixed (htext _))
    refine ⟨⟨_, hresolve, suffix.name_record .., suffix.makes_record ..⟩,
      inner.length_trimmedName_lt .., context.acc_spelledOver name, ?_⟩
    intro last hpath hlast
    rcases Relation.ReflTransGen.cases_head hpath with rfl | ⟨element, hfirst, hrest⟩
    · cases suffix with
      | pointer => exact .inl ⟨_, hresolve, Suffix.makes_record .pointer ..⟩
      | openArray | array => exact absurd ⟨hfree, _, hresolve, rfl⟩ (hlast _)
    · obtain ⟨part, _, _, _, heq, rfl⟩ := exists_suffixed_of_spelledOver (htext _) hfirst
      obtain ⟨other, rfl⟩ := exists_spelling_of_spelledOver hrest
      exact pointer_or_registered_or_bare other.trim_trimmedName hlast

theorem resolve?_padded_rows :
    let context := Context.ofRecords [.base "word" 2 .unsigned] .arm {}
    let name := " word *[ 003 ] []\t"
    context.registry.get? name = none ∧
      (∃ record, context.resolve? name = some record ∧ record.name = name ∧
        record.IsArrayOver "word *[ 003 ]" none) ∧
      ∀ last, Relation.ReflTransGen context.SpelledOver name last →
        (∀ element, ¬context.SpelledOver last element) →
        (∃ record, context.resolve? last = some record ∧ record.IsPointer) ∨
          last ∈ context.registry.names ∨ last = "word" := by
  intro context name
  let root : Root := ⟨"word".toList, by constructor <;> rintro _ ⟨⟩ <;> rfl, by simp⟩
  let space : Blanks := ⟨[' '], List.all_eq_true.mp (by decide)⟩
  let tight : Blanks := ⟨[], List.all_eq_true.mp (by decide)⟩
  let length : Digits := ⟨"003".toList, by decide, List.all_eq_true.mp (by decide)⟩
  let pointer : Spelling root := .suffixed (.bare space tight) space .pointer tight
  let row := Spelling.suffixed pointer tight (.array space length space (by decide)) tight
  let tab : Blanks := ⟨['\t'], List.all_eq_true.mp (by decide)⟩
  have hname : (row.suffixed space (.openArray tight) tab).name = name := by decide
  have hinner : row.trimmedName = "word *[ 003 ]" := by decide
  have hfree : context.registry.get? name = none := by decide
  obtain ⟨hresolve, -, -, hlast⟩ :=
    (resolve?_spelling context root).2 row space (.openArray tight) tab (by rwa [hname])
  rw [hname] at hresolve hlast
  exact ⟨hfree, hinner ▸ hresolve, hlast⟩

end Context

end BinarySchema
